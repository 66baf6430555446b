/-
The object layout is a log that processes append to. The object of a position
is made only by a process that has read all before it (`Ok.creating`), and
nothing makes it twice (`Ok.complete`). So every step is one of the log's
(`simulates`), as long as a creation that made its object is not answered as
lost (`truthful`).
-/
import Yeto.SampleIndex.Model

namespace Yeto.SampleIndex

open Lib List Appends Function System

variable {n : Nat} {α : Type} {body : Option α}

theorem entries_eq_length {read : List (Rec α)} (h : ended read = false) :
    entries read = read.length := by
  unfold entries
  rw [filter_eq_self.2]
  intro r hr
  have hr := any_eq_false.1 h r hr
  cases hbody : r.body with
  | none => exact absurd (by rw [hbody]; rfl) hr
  | some body => rfl

theorem absorb_eq {records : List (Rec α)} :
    ∀ {read read' : List (Rec α)}, absorb read records = some read' → read' = read ++ records := by
  induction records with intro read read' h
  | nil =>
    cases h
    exact (append_nil read).symm
  | cons r records ih =>
    unfold absorb at h
    split at h
    · rw [ih h, append_assoc]
      rfl
    · cases h

theorem makeRecord_eq {read : List (Rec α)} {r : Rec α} (h : makeRecord read body = some r) :
    ended read = false ∧ r = ⟨read.length, body⟩ := by
  unfold makeRecord at h
  split at h
  · cases h
  next hended =>
  cases h
  have hended := Bool.eq_false_iff.2 hended
  exact ⟨hended, by rw [entries_eq_length hended]⟩

/-- What every append of an index amounts to: the records of the calls that
returned, their positions, their order, and the end. -/
structure Appended (index : List (Rec α × Nat))
    (events : List (Appends.Event (Option α))) : Prop where
  once : ∀ id body, .returned id body ∈ events →
    ∃ pos, index.filter (fun x => x.2 = id) = [(⟨pos, body⟩, id)]
  positions : ∀ (k : Nat) (x : Rec α × Nat), index[k]? = some x → x.1.pos = k
  order : events.Pairwise fun later earlier => ∀ a body b size,
    earlier = .returned a body → later = .begun b size →
    ∀ x ∈ index, ∀ y ∈ index, x.2 = a → y.2 = b → x.1.pos < y.1.pos
  last : ∀ x ∈ index, x.1.body = none → x.1.pos + 1 = index.length

abbrev Log (n : Nat) (α : Type) : System (Appends.State (Fin n) (Option α)) :=
  Appends.system (Fin n) Option.isNone

def logged (x : Rec α × Nat) : Option α × Nat := (x.1.body, x.2)

theorem appended_of_log {S : Appends.State (Fin n) (Option α)} (h : (Log n α).Reachable S)
    {index : List (Rec α × Nat)} (hidx : S.index = index.map logged)
    (hpos : ∀ (k : Nat) (x : Rec α × Nat), index[k]? = some x → x.1.pos = k) :
    Appended index S.events := by
  have hget : ∀ {x}, x ∈ index →
      index[x.1.pos]? = some x ∧ S.index[x.1.pos]? = some (logged x) := by
    intro x hx
    obtain ⟨k, hk⟩ := getElem?_of_mem hx
    obtain rfl := hpos k x hk
    refine ⟨hk, ?_⟩
    rw [hidx, getElem?_map, hk]
    rfl
  refine ⟨?_, hpos, ?_, ?_⟩
  · intro id body hret
    have honce := once h hret
    unfold Appends.State.added at honce
    rw [hidx, filter_map] at honce
    obtain ⟨x, hx, hlogged⟩ := map_eq_singleton_iff.1 honce
    obtain ⟨⟨pos, body'⟩, call⟩ := x
    cases hlogged
    exact ⟨pos, hx⟩
  · refine (order h).imp fun {later earlier} horder => ?_
    intro a body b size ha hb x hx y hy hxa hyb
    exact horder a body b size ha hb _ _ _ _ (hget hx).2 (hget hy).2 hxa hyb
  · intro x hx hbody
    have hlast := last h (hget hx).2 (by simp [logged, hbody])
    rwa [hidx, length_map] at hlast

theorem begins_of_log {a b : List (Rec α × Nat)}
    (ha : ∀ (k : Nat) (x : Rec α × Nat), a[k]? = some x → x.1.pos = k)
    (hb : ∀ (k : Nat) (x : Rec α × Nat), b[k]? = some x → x.1.pos = k)
    (h : a.map logged <+: b.map logged) : a <+: b := by
  refine prefix_iff_getElem?.2 fun k hk => ?_
  have hx := getElem?_eq_getElem hk
  have hlog := prefix_iff_getElem?.1 h k (by rwa [length_map])
  rw [getElem?_map, getElem_map] at hlog
  obtain ⟨y, hy, hlogged⟩ := Option.map_eq_some_iff.1 hlog
  rw [hy]
  have hpos := (hb k y hy).trans (ha k _ hx).symm
  obtain ⟨hbody, hcall⟩ := Prod.mk.inj hlogged
  refine congrArg some (Prod.ext ?_ hcall)
  obtain ⟨⟨pos, body⟩, call⟩ := y
  cases hpos
  cases hbody
  rfl

namespace Objects

/-- No creation that made its object is answered as lost. -/
def truthful (_ : State n α) : Op n α → Bool
  | .create _ made answer => !(made && answer = .lost)
  | _ => true

def runs (n : Nat) (α : Type) : System (State n α) := System.guarded .new truthful State.exec

def State.records (s : State n α) : List (Rec α) := s.objects.map Obj.record

/-- Where a call is: a position to create is the first one not read. -/
def CallOk (read : List (Rec α)) (c : Call α) : Prop :=
  ∀ pos, c.phase = .creating pos → ended read = false ∧ pos = read.length

structure Ok (s : State n α) : Prop where
  keys : ∀ (k : Nat) (o : Obj α), s.objects[k]? = some o → o.key = k ∧ o.record.pos = k
  view : ∀ p, (s.procs p).read <+: s.records
  creating : ∀ p c, (s.procs p).call = some c → CallOk (s.procs p).read c

variable {s : State n α} {pos : Nat}

theorem Ok.object_some (hs : Ok s) {o : Obj α}
    (h : s.object pos = some o) : s.objects[pos]? = some o := by
  obtain ⟨k, hk⟩ := getElem?_of_mem (mem_of_find?_eq_some h)
  have hkey : o.key = pos := by simpa using find?_some h
  obtain rfl : k = pos := (hs.keys k o hk).1.symm.trans hkey
  exact hk

/-- A free position that was to be created is the end of the index, and all
before it is read. -/
theorem Ok.complete (hs : Ok s) {p : Fin n} (hpos : pos = (s.procs p).read.length)
    (hfree : s.object pos = none) : pos = s.objects.length ∧ (s.procs p).read = s.records := by
  have hlen : s.records.length = s.objects.length := length_map _
  have hle := (hs.view p).length_le
  have hge : s.objects.length ≤ pos := by
    refine Nat.le_of_not_lt fun hlt => ?_
    have hget := getElem?_eq_getElem hlt
    refine find?_eq_none.1 hfree _ (mem_of_getElem? hget) ?_
    exact decide_eq_true (hs.keys pos _ hget).1
  exact ⟨by omega, (hs.view p).eq_of_length (by omega)⟩

theorem Ok.set (hs : Ok s) {p : Fin n} {x : Proc α} (hview : x.read <+: s.records)
    (hcall : ∀ c, x.call = some c → CallOk x.read c) : Ok (s.set p x) where
  keys := hs.keys
  view := (forall_update_iff s.procs fun _ x => x.read <+: s.records).2
    ⟨hview, fun q _ => hs.view q⟩
  creating := (forall_update_iff s.procs fun _ x =>
    ∀ c, x.call = some c → CallOk x.read c).2 ⟨hcall, fun q _ => hs.creating q⟩

theorem Ok.setCall (hs : Ok s) {p : Fin n} {call : Option (Call α)}
    (hcall : ∀ c, call = some c → CallOk (s.procs p).read c) : Ok (s.setCall p call) :=
  hs.set (hs.view p) hcall

theorem Ok.put (hs : Ok s) (c : Call α) (hpos : pos = s.objects.length) : Ok (s.put pos c) := by
  subst hpos
  refine ⟨fun k o ho => ?_, fun p => ?_, hs.creating⟩
  · rcases getElem?_snoc ho with ho | ⟨rfl, rfl⟩
    · exact hs.keys k o ho
    · exact ⟨rfl, rfl⟩
  · refine (hs.view p).trans ?_
    unfold State.records State.put
    rw [map_append]
    exact prefix_append ..

def Call.live (c : Call α) : Appends.Live (Option α) := ⟨c.id, c.body, c.phase = .created⟩

def Proc.live (x : Proc α) : Option (Appends.Live (Option α)) := x.call.map Call.live

def State.log (s : State n α) : Appends.State (Fin n) (Option α) where
  index := s.index.map logged
  events := s.events
  calls := s.calls
  live := Proc.live ∘ s.procs

theorem log_set {p : Fin n} {x : Proc α} : (s.set p x).log
      = { s.log with live := update s.log.live p x.live } := by
  unfold State.log State.set
  rw [comp_update]
  rfl

theorem log_set_self {p : Fin n} {x : Proc α} (h : x.live = (s.procs p).live) :
    (s.set p x).log = s.log := by
  rw [log_set, h, show (s.procs p).live = s.log.live p from rfl, update_eq_self]

theorem log_put {c : Call α} : (s.put pos c).log
      = { s.log with index := s.log.index ++ [(c.body, c.id)] } := by
  unfold State.log State.put State.index
  simp only [map_append]
  rfl

theorem log_open (h : ended s.records = false) : (s.log.index.any fun x => x.1.isNone) = false := by
  unfold ended State.records at h
  unfold State.log State.index
  rw [any_map] at h ⊢
  rw [any_map]
  exact h

section Steps

variable {s' : State n α} {p : Fin n}

theorem live_eq {c : Call α} (h : (s.procs p).call = some c) : s.log.live p = some c.live := by
  show (s.procs p).call.map Call.live = _
  rw [h]
  rfl

theorem drop_steps (s : State n α) (p : Fin n) {x : Proc α}
    (hx : x.call = none) : (Log n α).Steps s.log (s.set p x).log := by
  refine guarded_steps (.drop p) rfl ?_
  rw [log_set, Proc.live, hx]
  rfl

theorem setCall_drop (s : State n α) (p : Fin n) (call : Option (Call α)) :
    (Log n α).Steps (s.setCall p call).log (s.setCall p none).log := by
  refine guarded_steps (.drop p) rfl ?_
  unfold State.setCall
  rw [log_set, log_set]
  show some _ = _
  rw [update_idem]
  rfl

section

variable (hs : Ok s)
include hs

theorem start_step (h : s.exec (.start p body) = some s') :
    Ok s' ∧ (Log n α).Steps s.log s'.log := by
  dsimp only [State.exec] at h
  split at h
  · cases h
  next hcall =>
  cases h
  have hok : Ok (s.setCall p (some ⟨s.calls, body, .reading, 0⟩)) :=
    hs.setCall (by rintro _ ⟨⟩ pos ⟨⟩)
  have hlive : s.log.live p = none := by
    show (s.procs p).call.map Call.live = _
    rw [hcall]
    rfl
  refine ⟨{ hok with }, ?_⟩
  refine guarded_steps (.start p body) rfl ?_
  rw [exec_start body hlive]
  unfold State.log State.setCall State.set State.index
  simp only [comp_update, length_map]
  rfl

theorem fetch_step (h : s.exec (.fetch p) = some s') : Ok s' ∧ (Log n α).Steps s.log s'.log := by
  have hfetch : s.fetch p = some s'
      ∧ ∀ c, (s.procs p).call = some c → ∀ pos, c.phase ≠ .creating pos := by
    dsimp only [State.exec] at h
    split at h
    · cases h
    next hcall =>
    refine ⟨h, ?_⟩
    rintro ⟨id, body, phase, races⟩ hc pos rfl
    exact hcall _ _ _ _ hc
  obtain ⟨h, hphase⟩ := hfetch
  obtain ⟨o, ho, h⟩ := Option.map_eq_some_iff.1 h
  have hget := hs.object_some ho
  split at h
  · next read habsorb =>
    subst h
    obtain rfl := absorb_eq habsorb
    refine ⟨hs.set ?_ ?_, ?_⟩
    · refine snoc_begins (hs.view p) ?_
      unfold State.records
      rw [getElem?_map, hget]
      rfl
    · intro c hc pos hpos
      exact absurd hpos (hphase c hc pos)
    · rw [log_set_self]
      rfl
  · subst h
    exact ⟨hs.set nil_prefix nofun, drop_steps s p rfl⟩

theorem make_step (h : s.exec (.make p) = some s') : Ok s' ∧ (Log n α).Steps s.log s'.log := by
  dsimp only [State.exec] at h
  split at h
  case h_2 => cases h
  next id body races hcall =>
  cases h
  refine ⟨hs.setCall ?_, ?_⟩
  · intro c hc pos hpos
    obtain ⟨r, hr, rfl⟩ := Option.map_eq_some_iff.1 hc
    obtain ⟨hended, rfl⟩ := makeRecord_eq hr
    cases hpos
    exact ⟨hended, rfl⟩
  · cases makeRecord (s.procs p).read body with
    | none => exact drop_steps s p rfl
    | some r =>
      unfold State.setCall
      rw [log_set_self]
      unfold Proc.live
      rw [hcall]
      rfl

theorem put_step {c : Call α} (hcall : (s.procs p).call = some c)
    (hphase : c.phase = .creating pos) (hfree : s.object pos = none) :
    Ok (s.put pos c) ∧ (Log n α).Steps s.log
      ((s.put pos c).setCall p (some { c with phase := .created })).log := by
  obtain ⟨hended, hpos⟩ := hs.creating p c hcall pos hphase
  obtain ⟨hlast, hread⟩ := hs.complete hpos hfree
  refine ⟨hs.put c hlast, guarded_steps (.add p) rfl ?_⟩
  have hlive : s.log.live p = some ⟨c.id, c.body, false⟩ := by
    rw [live_eq hcall, Call.live, hphase]
    rfl
  rw [exec_add hlive (log_open (hread ▸ hended))]
  unfold State.setCall
  rw [log_set, log_put]
  rfl

theorem create_step {made : Bool} {answer : Answer}
    (htrue : truthful s (.create p made answer) = true)
    (h : s.exec (.create p made answer) = some s') : Ok s' ∧ (Log n α).Steps s.log s'.log := by
  dsimp only [State.exec] at h
  split at h
  case h_2 => cases h
  next id body pos races hcall =>
  unfold State.create at h
  split at h
  case isFalse => cases h
  next hmade =>
  cases h
  cases made with
  | false =>
    have hlost : answer ≠ .won := fun heq => nomatch hmade.2 heq
    rw [if_neg Bool.false_ne_true]
    cases answer with
    | won => exact absurd rfl hlost
    | failed => exact ⟨hs.setCall nofun, drop_steps s p rfl⟩
    | lost =>
      dsimp only [Call.answered]
      split
      · exact ⟨hs.setCall nofun, drop_steps s p rfl⟩
      refine ⟨hs.setCall (by rintro _ ⟨⟩ pos ⟨⟩), ?_⟩
      unfold State.setCall
      rw [log_set_self]
      unfold Proc.live
      rw [hcall]
      rfl
  | true =>
    obtain ⟨hok, hadd⟩ := put_step hs hcall rfl (hmade.1 rfl)
    cases answer with
    | won => exact ⟨hok.setCall (by rintro _ ⟨⟩ pos ⟨⟩), hadd⟩
    | lost => cases htrue
    | failed => exact ⟨hok.setCall nofun, hadd.trans (setCall_drop ..)⟩

theorem giveBack_step (h : s.exec (.giveBack p) = some s') :
    Ok s' ∧ (Log n α).Steps s.log s'.log := by
  dsimp only [State.exec] at h
  split at h
  case h_2 => cases h
  next id body races hcall =>
  cases h
  have hok : Ok (s.setCall p none) := hs.setCall nofun
  refine ⟨{ hok with }, ?_⟩
  refine guarded_steps (.giveBack p) rfl ?_
  rw [exec_giveBack (live_eq hcall)]
  unfold State.log State.setCall State.set State.index
  simp only [comp_update]
  rfl

theorem exec_step {op : Op n α} (htrue : truthful s op = true) (h : s.exec op = some s') :
    Ok s' ∧ (Log n α).Steps s.log s'.log := by
  cases op with
  | start p body => exact start_step hs h
  | fetch p => exact fetch_step hs h
  | make p => exact make_step hs h
  | create p made answer => exact create_step hs htrue h
  | giveBack p => exact giveBack_step hs h
  | crash p =>
    cases h
    exact ⟨hs.set nil_prefix nofun, drop_steps s p rfl⟩

end

end Steps

theorem ok_of_reachable (h : (runs n α).Reachable s) : Ok s := by
  refine guarded_invariant ?_ ?_ h
  · exact ⟨nofun, fun _ => nil_prefix, nofun⟩
  · exact fun s s' op hs htrue hexec => (exec_step hs htrue hexec).1

theorem simulates (s s' : State n α) (h : (runs n α).Reachable s)
    (hstep : (runs n α).step s s') : (Log n α).Steps s.log s'.log := by
  obtain ⟨op, htrue, hexec⟩ := hstep
  exact (exec_step (ok_of_reachable h) htrue hexec).2

theorem appended_of_reachable (h : (runs n α).Reachable s) : Appended s.index s.events := by
  have hlog : (Log n α).Reachable s.log := by
    refine reachable_of_simulates ?_ simulates h
    rintro _ rfl
    rfl
  refine appended_of_log hlog rfl fun k x hx => ?_
  unfold State.index at hx
  rw [getElem?_map] at hx
  obtain ⟨o, ho, rfl⟩ := Option.map_eq_some_iff.1 hx
  exact ((ok_of_reachable h).keys k o ho).2

theorem grows {s' : State n α} (h : (runs n α).Reachable s) (hs : (runs n α).Steps s s') :
    s.index <+: s'.index ∧ ∀ p, (s.procs p).read <+: s'.records := by
  have hidx : s.index <+: s'.index := begins_of_log (appended_of_reachable h).positions
      (appended_of_reachable (h.steps hs)).positions
      (Appends.grows (steps_of_simulates simulates h hs))
  have hrecs : s.records <+: s'.records := by
    have hmap := hidx.map Prod.fst
    unfold State.index at hmap
    rwa [map_map, map_map] at hmap
  exact ⟨hidx, fun p => ((ok_of_reachable h).view p).trans hrecs⟩

end Objects

end Yeto.SampleIndex
