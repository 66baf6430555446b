/-
The file layout is a log that processes append to.

The file is the text of the complete records and a tail without a newline
(`Ok.text`). A process has read the first records, and its offset is the length
of their text (`ProcOk`). A writer that has scanned the file has read all of
it, so its truncation takes away a torn tail only. So every step is one of the
log's (`simulates`), as long as no tail is cut off under a reader (`calm`).
-/
import Yeto.SampleIndex.Proofs.Objects

namespace Yeto.SampleIndex.File

open Lib List Function State Appends

variable {n : Nat} {α : Type} (codec : Lines.Codec (Rec α)) {data file left : List Char}
  {id k pos : Nat}

/-- The data a process has read without the lock so far ends by `offset`. -/
def Proc.readBy (x : Proc α) (offset : Nat) : Bool :=
  match x.doing with
  | .reading data => x.offset + data.length ≤ offset
  | _ => true

/-- No torn tail is cut off that a reader has some of. -/
def calm (s : State n α) : Op n α → Bool
  | .cut p =>
    (s.file.drop (s.procs p).offset).isEmpty
      || (List.finRange n).all fun q => (s.procs q).readBy (s.procs p).offset
  | _ => true

def runs (n : Nat) (codec : Lines.Codec (Rec α)) : System (State n α) :=
  System.guarded .new calm (State.exec codec)

def State.records (s : State n α) : List (Rec α) := s.index.map Prod.fst

/-- The process has the lock. -/
def Doing.holds : Doing α → Bool
  | .appending _ _ .waiting => false
  | .appending _ _ _ => true
  | _ => false

structure ProcOk (file : List Char) (records : List (Rec α)) (x : Proc α) : Prop where
  view : x.read <+: records
  offset : x.offset = (codec.text x.read).length
  seen : ∀ data, x.doing = .reading data → data <+: file.drop x.offset
  scanned : ∀ id body, x.doing = .appending id body .scanned → x.read = records
  writing : ∀ id body pos left, x.doing = .appending id body (.writing pos left) →
    left ≠ [] → x.read = records ∧ ended x.read = false ∧ pos = x.read.length ∧ ∃ written,
        codec.dumps ⟨pos, body⟩ ++ ['\n'] = written ++ left ∧ file = codec.text records ++ written

structure Ok (s : State n α) : Prop where
  text : ∃ tail, '\n' ∉ tail ∧ s.file = codec.text s.records ++ tail
  procs : ∀ p, ProcOk codec s.file s.records (s.procs p)
  held : ∀ p, (s.procs p).doing.holds = true → s.lock = some p
  positions : ∀ (k : Nat) (r : Rec α), s.records[k]? = some r → r.pos = k

variable {codec}

theorem procOk_new (file : List Char) (records : List (Rec α)) : ProcOk codec file records .new :=
  ⟨List.nil_prefix, rfl, nofun, nofun, nofun⟩

theorem ProcOk.doing {records : List (Rec α)} {x : Proc α} (hx : ProcOk codec file records x)
    {doing : Doing α} (hseen : ∀ data, doing ≠ .reading data)
    (hscanned : ∀ id body, doing ≠ .appending id body .scanned) (hwriting : ∀ id body pos left,
      doing = .appending id body (.writing pos left) → left = []) :
    ProcOk codec file records { x with doing := doing } :=
  ⟨hx.view, hx.offset, fun data h => absurd h (hseen data),
    fun id body h => absurd h (hscanned id body),
    fun id body pos left h hleft => absurd (hwriting id body pos left h) hleft⟩

theorem ProcOk.other {file' : List Char} {records records' : List (Rec α)} {x : Proc α}
    (hx : ProcOk codec file records x) (hholds : x.doing.holds = false)
    (hrecs : records <+: records')
    (hseen : ∀ data, x.doing = .reading data → data <+: file'.drop x.offset) :
    ProcOk codec file' records' x := by
  refine ⟨hx.view.trans hrecs, hx.offset, hseen, ?_, ?_⟩
  · intro id body h
    rw [h] at hholds
    cases hholds
  · intro id body pos left h
    rw [h] at hholds
    cases hholds

theorem take_spec {s : State n α} {p : Fin n} {x : Proc α} (hs : Ok codec s)
    (hdata : data <+: s.file.drop (s.procs p).offset) (h : (s.procs p).take codec data = some x) :
    x.read <+: s.records ∧ x.offset = (codec.text x.read).length
      ∧ (data = s.file.drop (s.procs p).offset → x.read = s.records) := by
  obtain ⟨tail, htail, hfile⟩ := hs.text
  have hx := hs.procs p
  obtain ⟨more, hmore⟩ := hx.view
  have hdrop : s.file.drop (s.procs p).offset = codec.text more ++ tail := by
    rw [hfile, ← hmore, codec.text_append, hx.offset, append_assoc, drop_left]
  obtain ⟨k, hlines⟩ := codec.split_text htail (hdrop ▸ hdata)
  dsimp only [Proc.take] at h
  rw [hlines, codec.loadAll_dumps, Option.bind_some] at h
  obtain ⟨read, habsorb, rfl⟩ := Option.map_eq_some_iff.1 h
  obtain rfl := absorb_eq habsorb
  refine ⟨?_, ?_, fun hall => ?_⟩
  · rw [← hmore]
    exact (prefix_append_right_inj _).2 (List.take_prefix ..)
  · show (s.procs p).offset + _ = _
    rw [codec.text_append, length_append, hx.offset]
    rfl
  · have hsplit := Lines.split_join htail _ (codec.plain_lines more)
    rw [show Lines.join (more.map codec.dumps) ++ tail = data from
      (hall.trans hdrop).symm] at hsplit
    have hlen := congrArg List.length (hlines.symm.trans (congrArg Prod.fst hsplit))
    rw [length_map, length_map] at hlen
    have htake : more.take k = more := (List.take_prefix k more).eq_of_length hlen
    show (s.procs p).read ++ more.take k = s.records
    rw [htake, hmore]

section Frames

variable {s s' : State n α} {p : Fin n} {x : Proc α}

/-- One process changes, and nothing that is in the log. -/
structure Moves (s s' : State n α) (p : Fin n) (x : Proc α) : Prop where
  index : s'.index = s.index
  events : s'.events = s.events
  calls : s'.calls = s.calls
  procs : s'.procs = update s.procs p x

/-- A process that changes on its own, and may get or leave the lock. -/
theorem Ok.move (hs : Ok codec s) (hfile : s'.file = s.file)
    (hidx : s'.index = s.index) (hprocs : s'.procs = update s.procs p x)
    (hx : ProcOk codec s.file s.records x) (hlock : ∀ q, q ≠ p → s.lock = some q → s'.lock = some q)
    (hheld : x.doing.holds = true → s'.lock = some p) : Ok codec s' := by
  have hrecs : s'.records = s.records := congrArg (List.map Prod.fst) hidx
  refine ⟨?_, ?_, ?_, ?_⟩
  · rw [hfile, hrecs]
    exact hs.text
  · rw [hfile, hrecs, hprocs]
    exact (forall_update_iff s.procs fun _ => ProcOk codec s.file s.records).2
      ⟨hx, fun q _ => hs.procs q⟩
  · rw [hprocs]
    exact (forall_update_iff s.procs fun q x =>
      x.doing.holds = true → s'.lock = some q).2
      ⟨hheld, fun q hq hholds => hlock q hq (hs.held q hholds)⟩
  · rw [hrecs]
    exact hs.positions

theorem Ok.change (hs : Ok codec s) (hp : (s.procs p).doing.holds = true)
    (hprocs : s'.procs = update s.procs p x) (hlock : s'.lock = s.lock)
    (htext : ∃ tail, '\n' ∉ tail ∧ s'.file = codec.text s'.records ++ tail)
    (hx : ProcOk codec s'.file s'.records x) (hrecs : s.records <+: s'.records)
    (hseen : ∀ q data, (s.procs q).doing = .reading data → data <+: s'.file.drop (s.procs q).offset)
    (hpos : ∀ (k : Nat) (r : Rec α), s'.records[k]? = some r → r.pos = k) : Ok codec s' := by
  have hlocked := hs.held p hp
  refine ⟨htext, ?_, ?_, hpos⟩
  · rw [hprocs]
    refine (forall_update_iff s.procs fun _ =>
      ProcOk codec s'.file s'.records).2 ⟨hx, fun q hq => ?_⟩
    refine (hs.procs q).other ?_ hrecs (hseen q)
    refine Bool.eq_false_iff.2 fun hholds => hq ?_
    exact Option.some.inj ((hs.held q hholds).symm.trans hlocked)
  · rw [hlock, hprocs]
    exact (forall_update_iff s.procs fun q x =>
      x.doing.holds = true → s.lock = some q).2 ⟨fun _ => hlocked, fun q _ => hs.held q⟩

theorem unlock_other (s : State n α) {p : Fin n} (q : Fin n) (hq : q ≠ p)
    (h : s.lock = some q) : (s.unlock p).lock = some q := by
  unfold unlock
  rw [if_neg, h]
  rw [h]
  exact fun heq => hq (Option.some.inj heq)

theorem Ok.crash (hs : Ok codec s) (p : Fin n) : Ok codec (s.crash p) :=
  hs.move rfl rfl rfl (procOk_new ..) (unlock_other s) nofun

theorem Ok.stop (hs : Ok codec s) (p : Fin n) : Ok codec ((s.unlock p).doing p .nothing) :=
  hs.move rfl rfl rfl ((hs.procs p).doing nofun nofun nofun) (unlock_other s) nofun

end Frames

/-- The line of the append is complete. -/
def Stage.added : Stage → Bool
  | .writing _ left => left.isEmpty
  | _ => false

def Proc.live (x : Proc α) : Option (Appends.Live (Option α)) :=
  match x.doing with
  | .appending id body stage => some ⟨id, body, stage.added⟩
  | _ => none

def State.log (s : State n α) : Appends.State (Fin n) (Option α) where
  index := s.index.map logged
  events := s.events
  calls := s.calls
  live := Proc.live ∘ s.procs

section Steps

variable {s s' : State n α} {p : Fin n} {x : Proc α} {body : Option α}

theorem keep_steps (h : Moves s s' p x) (hlive : x.live = (s.procs p).live) :
    (Log n α).Steps s.log s'.log := by
  have hsame : s'.log = s.log := by
    unfold log
    rw [h.index, h.events, h.calls, h.procs, comp_update, hlive]
    congr 1
    exact update_eq_self (f := Proc.live ∘ s.procs) p
  rw [hsame]

theorem drop_steps (h : Moves s s' p x) (hlive : x.live = none) : (Log n α).Steps s.log s'.log := by
  refine System.guarded_steps (.drop p) rfl ?_
  unfold log
  rw [h.index, h.events, h.calls, h.procs, comp_update, hlive]
  rfl

theorem live_eq {stage : Stage} (h : (s.procs p).doing = .appending id body stage) :
    (s.procs p).live = some ⟨id, body, stage.added⟩ := by
  unfold Proc.live
  rw [h]

/-- A step keeps the invariant and is a step of the log. -/
def Follows (codec : Lines.Codec (Rec α)) (s s' : State n α) : Prop :=
  Ok codec s' ∧ (Log n α).Steps s.log s'.log

theorem seen_cut {q : Fin n} {data : List Char} (hcalm : calm s (.cut p) = true)
    (hq : (s.procs q).doing = .reading data) (hdata : data <+: s.file.drop (s.procs q).offset) :
    data <+: (s.file.take (s.procs p).offset).drop (s.procs q).offset := by
  rcases Bool.or_eq_true_iff.1 hcalm with hempty | hall
  · have hle := drop_eq_nil_iff.1 (isEmpty_iff.1 hempty)
    rwa [take_of_length_le hle]
  · have hq' := all_eq_true.1 hall q (mem_finRange q)
    unfold Proc.readBy at hq'
    rw [hq] at hq'
    have hle : data.length ≤ (s.procs p).offset - (s.procs q).offset := by
      have := of_decide_eq_true hq'
      omega
    rw [drop_take]
    exact prefix_take_iff.2 ⟨hdata, hle⟩

section

variable (hs : Ok codec s)
include hs

theorem crash_step (p : Fin n) : Follows codec s (s.crash p) :=
  ⟨hs.crash p, drop_steps ⟨rfl, rfl, rfl, rfl⟩ rfl⟩

theorem stop_step (p : Fin n) : Follows codec s ((s.unlock p).doing p .nothing) :=
  ⟨hs.stop p, drop_steps ⟨rfl, rfl, rfl, rfl⟩ rfl⟩

theorem start_step (h : s.exec codec (.start p body) = some s') : Follows codec s s' := by
  dsimp only [exec] at h
  split at h
  case h_2 => cases h
  next hdoing =>
  cases h
  have hlive : s.log.live p = none := by
    show (s.procs p).live = _
    unfold Proc.live
    rw [hdoing]
  refine ⟨hs.move rfl rfl rfl ((hs.procs p).doing nofun nofun nofun)
    (fun _ _ => id) nofun, System.guarded_steps (.start p body) rfl ?_⟩
  rw [exec_start body hlive]
  unfold log doing State.set
  simp only [comp_update, length_map]
  rfl

theorem acquire_step (h : s.exec codec (.acquire p) = some s') : Follows codec s s' := by
  dsimp only [exec] at h
  split at h
  case h_2 => cases h
  next id body hdoing =>
  split at h
  case isFalse => cases h
  next hlock =>
  cases h
  refine ⟨hs.move rfl rfl rfl ((hs.procs p).doing nofun nofun nofun) ?_ (fun _ => rfl), ?_⟩
  · intro q _ hq
    rw [hlock] at hq
    cases hq
  · exact keep_steps ⟨rfl, rfl, rfl, rfl⟩ (live_eq hdoing).symm

theorem scan_step (h : s.exec codec (.scan p) = some s') : Follows codec s s' := by
  dsimp only [exec] at h
  split at h
  case h_2 => cases h
  next id body hdoing =>
  split at h
  case h_2 =>
      cases h
      exact crash_step hs p
  next x hx =>
  cases h
  obtain ⟨hview, hoffset, hall⟩ := take_spec hs prefix_rfl hx
  have hheld := hs.held p (by rw [hdoing]; rfl)
  refine ⟨hs.move rfl rfl rfl ⟨hview, hoffset, nofun, fun _ _ _ => hall rfl,
    nofun⟩ (fun _ _ hq => hq) (fun _ => hheld), ?_⟩
  exact keep_steps ⟨rfl, rfl, rfl, rfl⟩ (live_eq hdoing).symm

theorem look_step (h : s.exec codec (.look p) = some s') : Follows codec s s' := by
  dsimp only [exec] at h
  split at h
  case h_2 => cases h
  cases h
  refine ⟨hs.move rfl rfl rfl ⟨(hs.procs p).view, (hs.procs p).offset, ?_, nofun,
    nofun⟩ (fun _ _ => id) nofun, drop_steps ⟨rfl, rfl, rfl, rfl⟩ rfl⟩
  rintro data ⟨⟩
  exact nil_prefix

theorem more_step (h : s.exec codec (.more p k) = some s') : Follows codec s s' := by
  dsimp only [exec] at h
  split at h
  case h_2 => cases h
  next data hdoing =>
  cases h
  refine ⟨hs.move rfl rfl rfl ⟨(hs.procs p).view, (hs.procs p).offset, ?_, nofun,
    nofun⟩ (fun _ _ => id) nofun, drop_steps ⟨rfl, rfl, rfl, rfl⟩ rfl⟩
  rintro _ ⟨⟩
  obtain ⟨rest, hrest⟩ := (hs.procs p).seen data hdoing
  rw [← drop_drop, ← hrest, drop_left]
  exact (prefix_append_right_inj _).2 (List.take_prefix ..)

theorem done_step (h : s.exec codec (.done p) = some s') : Follows codec s s' := by
  dsimp only [exec] at h
  split at h
  case h_2 => cases h
  next data hdoing =>
  split at h
  case isFalse => cases h
  split at h
  case h_2 =>
      cases h
      exact crash_step hs p
  next x hx =>
  cases h
  obtain ⟨hview, hoffset, -⟩ := take_spec hs ((hs.procs p).seen data hdoing) hx
  exact ⟨hs.move rfl rfl rfl ⟨hview, hoffset, nofun, nofun, nofun⟩
    (fun _ _ => id) nofun, drop_steps ⟨rfl, rfl, rfl, rfl⟩ rfl⟩

theorem finish_step (h : s.exec codec (.finish p) = some s') : Follows codec s s' := by
  dsimp only [exec] at h
  split at h
  case h_2 => cases h
  next id body pos hdoing =>
  split at h
  case h_2 =>
      cases h
      exact crash_step hs p
  next x hx =>
  cases h
  obtain ⟨hview, hoffset, -⟩ := take_spec hs prefix_rfl hx
  refine ⟨hs.move rfl rfl rfl ⟨hview, hoffset, nofun, nofun, nofun⟩
    (unlock_other s) nofun, System.guarded_steps (.giveBack p) rfl ?_⟩
  rw [exec_giveBack (live_eq hdoing)]
  unfold log State.set
  simp only [comp_update]
  rfl

theorem take_text (hread : (s.procs p).read = s.records) :
    s.file.take (s.procs p).offset = codec.text s.records := by
  obtain ⟨tail, -, hfile⟩ := hs.text
  rw [hfile, (hs.procs p).offset, hread, take_left]

theorem cut_step (hcalm : calm s (.cut p) = true) (h : s.exec codec (.cut p) = some s') :
    Follows codec s s' := by
  dsimp only [exec] at h
  split at h
  case h_2 => cases h
  next id body hdoing =>
  cases h
  unfold cut
  split
  · exact stop_step hs p
  next r hr =>
  obtain ⟨hended, rfl⟩ := makeRecord_eq hr
  have hread := (hs.procs p).scanned id body hdoing
  have hfile := take_text hs hread
  have hholds : (s.procs p).doing.holds = true := by rw [hdoing]; rfl
  refine ⟨hs.change hholds rfl rfl ⟨[], nofun, ?_⟩ ?_ prefix_rfl ?_ hs.positions, ?_⟩
  · exact hfile.trans (append_nil _).symm
  · refine ⟨(hs.procs p).view, (hs.procs p).offset, nofun, nofun, ?_⟩
    rintro _ _ pos left ⟨⟩ -
    exact ⟨hread, hended, rfl, [], rfl, hfile.trans (append_nil _).symm⟩
  · intro q data hq
    exact seen_cut hcalm hq ((hs.procs q).seen data hq)
  · refine keep_steps ⟨rfl, rfl, rfl, rfl⟩ ?_
    rw [live_eq hdoing]
    simp [Proc.live, Stage.added]

end

theorem written_plain {line written : List Char} (hline : '\n' ∉ line)
    (h : line ++ ['\n'] = written ++ left) (hleft : left ≠ []) : '\n' ∉ written := by
  have hle : written.length ≤ line.length := by
    have hlen := congrArg List.length h
    rw [length_append, length_append, length_singleton] at hlen
    have := length_pos_iff.2 hleft
    omega
  have hbegins : written <+: line :=
    prefix_of_prefix_length_le ⟨left, h.symm⟩ (prefix_append ..) hle
  exact fun hmem => hline (hbegins.subset hmem)

theorem seen_more {offset : Nat} {more : List Char} (h : data <+: file.drop offset) :
    data <+: (file ++ more).drop offset := by
  rw [drop_append]
  exact h.trans (prefix_append ..)

theorem log_open (h : ended s.records = false) : (s.log.index.any fun x => x.1.isNone) = false := by
  unfold ended records at h
  unfold log
  rw [any_map] at h ⊢
  exact h

theorem write_some (hs : Ok codec s)
    (hdoing : (s.procs p).doing = .appending id body (.writing pos left))
    (hmore : left.drop k ≠ []) : Follows codec s (s.write p id body pos left k) := by
  have hleft : left ≠ [] := fun h => hmore (by rw [h]; exact drop_nil)
  obtain ⟨hread, hended, hpos, written, hline, hfile⟩ :=
    (hs.procs p).writing id body pos left hdoing hleft
  have hidx : (s.write p id body pos left k).index = s.index := if_neg hmore
  have hrecs : (s.write p id body pos left k).records = s.records :=
    congrArg (List.map Prod.fst) hidx
  have hline' : codec.dumps ⟨pos, body⟩ ++ ['\n'] = (written ++ left.take k) ++ left.drop k := by
    rw [append_assoc, take_append_drop, hline]
  have hfile' : (s.write p id body pos left k).file
      = codec.text s.records ++ (written ++ left.take k) := by
    rw [← append_assoc, ← hfile]
    rfl
  have hholds : (s.procs p).doing.holds = true := by rw [hdoing]; rfl
  refine ⟨hs.change hholds rfl rfl
    ⟨_, written_plain (codec.plain _) hline' hmore, ?_⟩ ?_ ?_ ?_ ?_, ?_⟩
  · rw [hrecs, hfile']
  · rw [hrecs]
    refine ⟨(hs.procs p).view, (hs.procs p).offset, nofun, nofun, ?_⟩
    rintro _ _ _ _ ⟨⟩ -
    exact ⟨hread, hended, hpos, _, hline', hfile'⟩
  · exact hrecs ▸ prefix_rfl
  · intro q data hq
    exact seen_more ((hs.procs q).seen data hq)
  · rw [hrecs]
    exact hs.positions
  · refine keep_steps ⟨hidx, rfl, rfl, rfl⟩ ?_
    rw [live_eq hdoing]
    unfold Proc.live Stage.added
    dsimp only
    rw [isEmpty_eq_false_iff.2 hmore, isEmpty_eq_false_iff.2 hleft]

theorem write_all (hs : Ok codec s)
    (hdoing : (s.procs p).doing = .appending id body (.writing pos left)) (hleft : left ≠ [])
    (hall : left.drop k = []) : Follows codec s (s.write p id body pos left k) := by
  obtain ⟨hread, hended, hpos, written, hline, hfile⟩ :=
    (hs.procs p).writing id body pos left hdoing hleft
  have hidx : (s.write p id body pos left k).index = s.index ++ [(⟨pos, body⟩, id)] := if_pos hall
  have hrecs : (s.write p id body pos left k).records = s.records ++ [⟨pos, body⟩] := by
    unfold records
    rw [hidx, map_append]
    rfl
  have htake : left.take k = left := by
    rw [← take_append_drop k left, hall, append_nil, take_take, Nat.min_self]
  have hfile' : (s.write p id body pos left k).file = codec.text (s.records ++ [⟨pos, body⟩]) := by
    rw [codec.text_append, codec.text_singleton, hline, ← append_assoc, ← hfile]
    show s.file ++ left.take k = _
    rw [htake]
  have hholds : (s.procs p).doing.holds = true := by rw [hdoing]; rfl
  refine ⟨hs.change hholds rfl rfl ⟨[], nofun, ?_⟩ ?_ ?_ ?_ ?_, ?_⟩
  · rw [hrecs, hfile', append_nil]
  · rw [hrecs]
    refine ⟨?_, (hs.procs p).offset, nofun, nofun, ?_⟩
    · exact (hs.procs p).view.trans (prefix_append ..)
    · rintro _ _ _ _ ⟨⟩ hmore
      exact absurd hall hmore
  · rw [hrecs]
    exact prefix_append ..
  · intro q data hq
    exact seen_more ((hs.procs q).seen data hq)
  · rw [hrecs]
    intro j r hr
    rcases getElem?_snoc hr with hr | ⟨rfl, rfl⟩
    · exact hs.positions j r hr
    · rw [hpos, hread]
  · refine System.guarded_steps (.add p) rfl ?_
    have hlive : s.log.live p = some ⟨id, body, false⟩ := by
      refine (live_eq hdoing).trans ?_
      simp [Stage.added, hleft]
    rw [exec_add hlive (log_open (hread ▸ hended))]
    unfold log
    rw [hidx, map_append]
    unfold write doing State.set
    simp only [comp_update, hall]
    rfl

theorem write_step (hs : Ok codec s) (h : s.exec codec (.write p k) = some s') :
    Follows codec s s' := by
  dsimp only [exec] at h
  split at h
  case h_2 => cases h
  next id body pos c left hdoing =>
  cases h
  by_cases hall : (c :: left).drop k = []
  · exact write_all hs hdoing (cons_ne_nil c left) hall
  · exact write_some hs hdoing hall

theorem exec_step {op : Op n α} (hs : Ok codec s) (hcalm : calm s op = true)
    (h : s.exec codec op = some s') : Follows codec s s' := by
  cases op with
  | start p body => exact start_step hs h
  | acquire p => exact acquire_step hs h
  | scan p => exact scan_step hs h
  | cut p => exact cut_step hs hcalm h
  | write p k => exact write_step hs h
  | finish p => exact finish_step hs h
  | fail p =>
    dsimp only [exec] at h
    split at h <;> cases h
    exact stop_step hs p
  | crash p =>
    cases h
    exact crash_step hs p
  | look p => exact look_step hs h
  | more p k => exact more_step hs h
  | done p => exact done_step hs h

end Steps

theorem ok_of_reachable {s : State n α} (h : (runs n codec).Reachable s) : Ok codec s := by
  refine System.guarded_invariant ?_ ?_ h
  · exact ⟨⟨[], nofun, rfl⟩, fun _ => procOk_new .., nofun, nofun⟩
  · exact fun s s' op hs hcalm hexec => (exec_step hs hcalm hexec).1

theorem simulates (s s' : State n α) (h : (runs n codec).Reachable s)
    (hstep : (runs n codec).step s s') : (Log n α).Steps s.log s'.log := by
  obtain ⟨op, hcalm, hexec⟩ := hstep
  exact (exec_step (ok_of_reachable h) hcalm hexec).2

theorem appended_of_reachable {s : State n α}
    (h : (runs n codec).Reachable s) : Appended s.index s.events := by
  have hlog : (Log n α).Reachable s.log := by
    refine System.reachable_of_simulates ?_ simulates h
    rintro _ rfl
    rfl
  refine appended_of_log hlog rfl fun k x hx => ?_
  refine (ok_of_reachable h).positions k x.1 ?_
  unfold records
  rw [getElem?_map, hx]
  rfl

theorem grows {s s' : State n α} (h : (runs n codec).Reachable s) (hs : (runs n codec).Steps s s') :
    s.index <+: s'.index ∧ ∀ p, (s.procs p).read <+: s'.records := by
  have hidx : s.index <+: s'.index := begins_of_log (appended_of_reachable h).positions
      (appended_of_reachable (h.steps hs)).positions
      (Appends.grows (System.steps_of_simulates simulates h hs))
  exact ⟨hidx, fun p =>
    ((ok_of_reachable h).procs p).view.trans (hidx.map Prod.fst)⟩

end Yeto.SampleIndex.File
