/-
No buffered group is trained twice.

What the takes of a lane return lies below its read position, and what they
pass is selected by some take (`LaneOk`). A restart keeps this as long as the
cursor it finds is not before what a take returned, which is decided by the
log alone (`Log.MayRestart`). A torn record breaks it (`glued_record_lost`).
-/
import Yeto.Lanes.Proofs.Log
import Mathlib.Data.List.Nodup

namespace Yeto.Lanes

open Lib List Lane Function

variable {view : Nat} {r : Reader}

/-- A selection over the positions from `start` to `stop`: every position of
the lane is chosen or stale. -/
structure Selects (own : Nat → Bool) (start stop : Nat) (chosen stale : List Nat) : Prop where
  le : start ≤ stop
  mem : ∀ p, (p ∈ chosen ∨ p ∈ stale) ↔ start ≤ p ∧ p < stop ∧ own p = true
  nodup : chosen.Nodup

theorem selects_nil (own : Nat → Bool) (start : Nat) : Selects own start start [] [] :=
  ⟨Nat.le_refl _, fun p => ⟨by simp, fun h => by omega⟩, .nil⟩

theorem select_spec (own : Nat → Bool) (len fuel : Nat) :
    ∀ limit pos : Nat, Selects own pos (select own len fuel limit pos).2
      (select own len fuel limit pos).1 [] := by
  induction fuel with intro limit pos
  | zero => exact selects_nil own pos
  | succ fuel ih =>
    unfold select
    split
    · split
      · next hown =>
        obtain ⟨hle, hmem, hnd⟩ := ih (limit - 1) (pos + 1)
        refine ⟨by dsimp only; omega, fun p => ?_, ?_⟩
        · have hp := hmem p
          simp only [not_mem_nil, or_false] at hp
          simp only [mem_cons, not_mem_nil, or_false, hp]
          constructor
          · rintro (rfl | h)
            · exact ⟨Nat.le_refl _, by omega, hown⟩
            · exact ⟨by omega, h.2⟩
          · rintro ⟨hge, hlt, hp⟩
            rcases Nat.lt_or_eq_of_le hge with h | rfl
            · exact .inr ⟨h, hlt, hp⟩
            · exact .inl rfl
        · refine nodup_cons.2 ⟨fun h => ?_, hnd⟩
          have := ((hmem pos).1 (.inl h)).1
          omega
      · next hown =>
        obtain ⟨hle, hmem, hnd⟩ := ih limit (pos + 1)
        refine ⟨by omega, fun p => (hmem p).trans ?_, hnd⟩
        refine ⟨fun h => ⟨by omega, h.2⟩, fun h => ⟨?_, h.2⟩⟩
        rcases Nat.lt_or_eq_of_le h.1 with h' | rfl
        · exact h'
        · exact absurd h.2.2 hown
    · exact selects_nil own pos

variable {own : Nat → Bool}

theorem Selects.more {start read stop : Nat}
    {chosen stale out : List Nat} (h : Selects own start read chosen stale)
    (hout : Selects own read stop out []) (test : Nat → Bool) :
    Selects own start stop (chosen ++ out.filter test) (stale ++ out.filter (!test ·)) := by
  have hmem : ∀ p, p ∈ out ↔ read ≤ p ∧ p < stop ∧ own p = true := by
    intro p
    simpa using hout.mem p
  refine ⟨Nat.le_trans h.le hout.le, fun p => ?_, ?_⟩
  · have hparts : (p ∈ chosen ++ out.filter test ∨ p ∈ stale ++ out.filter (!test ·))
        ↔ (p ∈ chosen ∨ p ∈ stale) ∨ p ∈ out := by
      simp only [mem_append, mem_filter, Bool.not_eq_true']
      cases test p <;> simp <;> tauto
    have hle := h.le
    have hle' := hout.le
    rw [hparts, h.mem p, hmem p]
    constructor
    · rintro (⟨h₁, h₂, h₃⟩ | ⟨h₁, h₂, h₃⟩)
      · exact ⟨h₁, by omega, h₃⟩
      · exact ⟨by omega, h₂, h₃⟩
    · rintro ⟨h₁, h₂, h₃⟩
      rcases Nat.lt_or_ge p read with hlt | hge
      · exact .inl ⟨h₁, hlt, h₃⟩
      · exact .inr ⟨hge, h₂, h₃⟩
  · refine nodup_append.2 ⟨h.nodup, hout.nodup.filter _, ?_⟩
    intro p hp q hq heq
    subst heq
    have hlt := ((h.mem p).1 (.inl hp)).2.1
    have hge := ((hmem p).1 (mem_filter.1 hq).1).1
    omega

def Lane.selected (l : Lane) : List Take :=
  match l.reader with
  | none => l.takes
  | some r => l.drop r

/-- Some take of the lane selected the position. -/
def Passed (l : Lane) (p : Nat) : Prop := ∃ t ∈ l.selected, p ∈ t.chosen ∨ p ∈ t.stale

/-- A reader may go on at `c`: nothing before it is left out, and nothing
behind it was returned. -/
structure Safe (own : Nat → Bool) (l : Lane) (c : Nat) : Prop where
  past : ∀ t ∈ l.takes, t.returned = true → t.stop ≤ c
  covered : ∀ p < c, own p = true → Passed l p

/-- Where the take in progress began, or the next one will. -/
def Reader.front (r : Reader) : Nat :=
  match r.taking with
  | none => r.read
  | some k => k.start

structure ReaderOk (own : Nat → Bool) (l : Lane) (r : Reader) : Prop where
  past : ∀ t ∈ l.takes, t.returned = true → t.stop ≤ r.front
  covered : ∀ p < r.read, own p = true → Passed l p
  taking : ∀ k, r.taking = some k → Selects own k.start r.read k.chosen k.stale
  logged : ∀ k, r.taking = some k → k.logged = true → ∀ c, l.log.MayRestart c → r.read ≤ c
  lists : l.log.Lists r.keys

structure LaneOk (own : Nat → Bool) (l : Lane) : Prop where
  takes : ∀ t ∈ l.takes, Selects own t.start t.stop t.chosen t.stale
  apart : l.takes.Pairwise fun newer older => newer.returned = true →
    older.returned = true → older.stop ≤ newer.start
  passed : ∀ t ∈ l.takes, ∀ p < t.stop, own p = true → Passed l p
  shape : l.log.Shape
  safe : ∀ c, l.log.MayRestart c → Safe own l c
  alive : ∀ r, l.reader = some r → ReaderOk own l r

variable {l : Lane}

theorem ReaderOk.front_le (h : ReaderOk own l r) : r.front ≤ r.read := by
  unfold Reader.front
  split
  · exact Nat.le_refl _
  · next k hk => exact (h.taking k hk).le

theorem ReaderOk.safe (h : ReaderOk own l r) : Safe own l r.read :=
  ⟨fun t ht hret => Nat.le_trans (h.past t ht hret) h.front_le, h.covered⟩

theorem Safe.mono {l l' : Lane} {c : Nat} (hpassed : ∀ p, Passed l p → Passed l' p)
    (hreturned : ∀ t ∈ l'.takes, t.returned = true → t ∈ l.takes)
    (h : Safe own l c) : Safe own l' c := ⟨fun t ht hret => h.past t (hreturned t ht hret) hret,
    fun p hp hown => hpassed p (h.covered p hp hown)⟩

theorem LaneOk.goOn {log : Log} {reader reader' : Option Reader} {takes : List Take}
    (h : LaneOk own ⟨log, reader, takes⟩)
    (hpassed : ∀ p, Passed ⟨log, reader, takes⟩ p → Passed ⟨log, reader', takes⟩ p)
    (halive : ∀ r, reader' = some r → ReaderOk own ⟨log, reader', takes⟩ r) :
    LaneOk own ⟨log, reader', takes⟩ :=
  { h with
    passed := fun t ht p hp hown => hpassed p (h.passed t ht p hp hown)
    safe := fun c hc => (h.safe c hc).mono hpassed fun _ ht _ => ht
    alive := halive }

variable {p : Nat}

section Steps

variable {versions : List Int} {dataEnded : Bool} {l' : Lane}

theorem passed_ended {log log' : Log} {read keys : Nat} {k : Taking}
    {takes : List Take} {reader : Option Reader} {returned : Bool}
    (hreader : reader = none ∨ reader = some ⟨read, keys, none⟩)
    (h : Passed ⟨log, some ⟨read, keys, some k⟩, takes⟩ p) :
    Passed ⟨log', reader, k.ended read returned :: takes⟩ p := by
  have hselected : selected ⟨log', reader, k.ended read returned :: takes⟩
      = k.ended read returned :: takes := by rcases hreader with rfl | rfl <;> rfl
  obtain ⟨t, ht, hp⟩ := h
  unfold Passed
  rw [hselected]
  rcases mem_cons.1 ht with rfl | ht
  · exact ⟨_, mem_cons_self, hp⟩
  · exact ⟨t, mem_cons_of_mem _ ht, hp⟩

/-- A take that ends without returning leaves what the lane passed; the log
may have got its cursor. -/
theorem laneOk_dropped {log log' : Log} {read keys : Nat} {k : Taking}
    {takes : List Take} {reader : Option Reader}
    (h : LaneOk own ⟨log, some ⟨read, keys, some k⟩, takes⟩)
    (hshape : log'.Shape) (hlists : log'.Lists keys)
    (hcursor : ∀ c, log'.MayRestart c → log.MayRestart c ∨ c = read)
    (hreader : reader = none ∨ reader = some ⟨read, keys, none⟩) :
    LaneOk own ⟨log', reader, k.ended read false :: takes⟩ := by
  have hr := h.alive _ rfl
  have hpassed : ∀ p, Passed ⟨log, some ⟨read, keys, some k⟩, takes⟩ p →
      Passed ⟨log', reader, k.ended read false :: takes⟩ p := fun p => passed_ended hreader
  have hreturned : ∀ t ∈ k.ended read false :: takes, t.returned = true → t ∈ takes := by
    intro t ht hret
    rcases mem_cons.1 ht with rfl | ht
    · cases hret
    · exact ht
  have hsafe : Safe own ⟨log', reader, k.ended read false :: takes⟩ read :=
    hr.safe.mono hpassed hreturned
  refine ⟨forall_mem_cons.2 ⟨hr.taking k rfl, h.takes⟩,
    pairwise_cons.2 ⟨fun _ _ hret => (nomatch hret), h.apart⟩,
    forall_mem_cons.2 ⟨hsafe.covered, fun t ht p hp hown =>
      hpassed p (h.passed t ht p hp hown)⟩, hshape, fun c hc => ?_, ?_⟩
  · rcases hcursor c hc with hc | rfl
    · exact (h.safe c hc).mono hpassed hreturned
    · exact hsafe
  · intro r hr'
    rcases hreader with rfl | rfl
    · cases hr'
    · cases hr'
      exact ⟨hsafe.past, hsafe.covered, nofun, nofun, hlists⟩

section

variable (h : LaneOk own l)
include h

theorem laneOk_start (hclean : l.log.clean = true)
    (hexec : l.exec own versions dataEnded (.start view) = some l') : LaneOk own l' := by
  obtain ⟨log, reader, takes⟩ := l
  dsimp only [exec] at hexec
  split at hexec
  · cases hexec
  split at hexec
  case isFalse => cases hexec
  cases hexec
  have hsafe := h.safe _ (mayRestart_lastCursor h.shape hclean)
  refine h.goOn (fun _ => id) ?_
  rintro r ⟨⟩
  refine ⟨hsafe.past, hsafe.covered, nofun, nofun, ?_⟩
  cases log with
  | file text => trivial
  | objects texts => exact ⟨Nat.le_refl _, Nat.le_succ _⟩

theorem laneOk_take {rolloutId groups : Nat} {floor : Option Int}
    (hexec : l.exec own versions dataEnded (.take rolloutId groups floor) = some l') :
    LaneOk own l' := by
  obtain ⟨log, reader, takes⟩ := l
  dsimp only [exec] at hexec
  split at hexec
  case h_2 => cases hexec
  next read keys =>
  split at hexec
  case isFalse => cases hexec
  cases hexec
  have hr := h.alive _ rfl
  have hpassed : ∀ p, Passed ⟨log, some ⟨read, keys, none⟩, takes⟩ p →
      Passed ⟨log, some ⟨read, keys, some
        ⟨rolloutId, groups, floor, read, [], [], false⟩⟩, takes⟩ p := by
    rintro p ⟨t, ht, hp⟩
    exact ⟨t, mem_cons_of_mem _ ht, hp⟩
  refine h.goOn hpassed ?_
  rintro r ⟨⟩
  refine ⟨hr.past, fun p hp hown => hpassed p (hr.covered p hp hown), ?_, ?_, hr.lists⟩
  · rintro k ⟨⟩
    exact selects_nil own read
  · rintro k ⟨⟩ ⟨⟩

theorem laneOk_select (hexec : l.exec own versions dataEnded (.select view) = some l') :
    LaneOk own l' := by
  obtain ⟨log, reader, takes⟩ := l
  dsimp only [exec] at hexec
  split at hexec
  case h_2 => cases hexec
  next read keys k =>
  split at hexec
  case isTrue => cases hexec
  next hmore =>
  cases hexec
  have hr := h.alive _ rfl
  have hout := select_spec own (min view versions.length)
    (min view versions.length - read) (k.groups - k.chosen.length) read
  generalize Lanes.select own (min view versions.length)
    (min view versions.length - read) (k.groups - k.chosen.length) read = out at hout
  have hmore' := (hr.taking k rfl).more hout (k.trains versions)
  have hpassed : ∀ p, Passed ⟨log, some ⟨read, keys, some k⟩, takes⟩ p →
      Passed ⟨log, some ⟨out.2, keys, some { k with
        chosen := k.chosen ++ out.1.filter (k.trains versions)
        stale := k.stale ++ out.1.filter (!k.trains versions ·) }⟩, takes⟩ p := by
    rintro p ⟨t, ht, hp⟩
    rcases mem_cons.1 ht with rfl | ht
    · exact ⟨_, mem_cons_self, hp.imp (mem_append_left _) (mem_append_left _)⟩
    · exact ⟨t, mem_cons_of_mem _ ht, hp⟩
  refine h.goOn hpassed ?_
  rintro r ⟨⟩
  refine ⟨hr.past, fun p hp hown => ?_, ?_, ?_, hr.lists⟩
  · rcases Nat.lt_or_ge p k.start with hlt | hge
    · have hle := (hr.taking k rfl).le
      exact hpassed p (hr.covered p (Nat.lt_of_lt_of_le hlt hle) hown)
    · exact ⟨_, mem_cons_self, (hmore'.mem p).2 ⟨hge, hp, hown⟩⟩
  · rintro k' ⟨⟩
    exact hmore'
  · rintro k' ⟨⟩ hlogged
    exact absurd (.inl hlogged) hmore

theorem laneOk_fail (hexec : l.exec own versions dataEnded .fail = some l') : LaneOk own l' := by
  obtain ⟨log, reader, takes⟩ := l
  dsimp only [exec] at hexec
  split at hexec
  case h_2 => cases hexec
  cases hexec
  exact laneOk_dropped h h.shape (h.alive _ rfl).lists (fun c => .inl) (.inr rfl)

theorem laneOk_tear {n : Nat} {dies : Bool}
    (hexec : l.exec own versions dataEnded (.tear n dies) = some l') : LaneOk own l' := by
  obtain ⟨log, reader, takes⟩ := l
  dsimp only [exec] at hexec
  split at hexec
  case h_2 => cases hexec
  split at hexec
  case isFalse => cases hexec
  cases hexec
  have hlists := (h.alive _ rfl).lists
  refine laneOk_dropped h (shape_tear h.shape) (lists_tear hlists)
    (fun c hc => mayRestart_tear h.shape hlists hc) ?_
  cases dies
  · exact .inr rfl
  · exact .inl rfl

theorem laneOk_crash (hexec : l.exec own versions dataEnded .crash = some l') : LaneOk own l' := by
  obtain ⟨log, reader, takes⟩ := l
  dsimp only [exec] at hexec
  split at hexec
  case h_2 => cases hexec
  next r =>
  cases hexec
  obtain ⟨read, keys, taking⟩ := r
  cases taking with
  | none => exact h.goOn (fun _ => id) nofun
  | some k => exact laneOk_dropped h h.shape (h.alive _ rfl).lists (fun c => .inl) (.inl rfl)

theorem laneOk_append (hexec : l.exec own versions dataEnded .append = some l') :
    LaneOk own l' := by
  obtain ⟨log, reader, takes⟩ := l
  dsimp only [exec] at hexec
  split at hexec
  case h_2 => cases hexec
  next read keys k =>
  split at hexec
  case isFalse => cases hexec
  cases hexec
  have hr := h.alive _ rfl
  have hcursor : ∀ c, (log.append keys (k.record read)).MayRestart c →
      c = read := fun c hc => mayRestart_append log keys h.shape hr.lists hc
  refine ⟨h.takes, h.apart, h.passed, shape_append log keys h.shape, fun c hc => ?_, ?_⟩
  · obtain rfl := hcursor c hc
    exact ⟨hr.safe.past, hr.safe.covered⟩
  · rintro r ⟨⟩
    refine ⟨hr.past, hr.covered, ?_, ?_, lists_append hr.lists⟩
    · rintro k' ⟨⟩
      exact hr.taking k rfl
    · rintro k' ⟨⟩ - c hc
      exact Nat.le_of_eq (hcursor c hc).symm

/-- A take returns: its record is what a restart would find. -/
theorem laneOk_giveBack (hexec : l.exec own versions dataEnded .giveBack = some l') :
    LaneOk own l' := by
  obtain ⟨log, reader, takes⟩ := l
  dsimp only [exec] at hexec
  split at hexec
  case h_2 => cases hexec
  next read keys k =>
  split at hexec
  case isFalse => cases hexec
  next hlogged =>
  cases hexec
  have hr := h.alive _ rfl
  have hpassed : ∀ p, Passed ⟨log, some ⟨read, keys, some k⟩, takes⟩ p →
      Passed ⟨log, some ⟨read, keys, none⟩, k.ended read true :: takes⟩ p :=
    fun p => passed_ended (.inr rfl)
  refine ⟨forall_mem_cons.2 ⟨hr.taking k rfl, h.takes⟩,
    pairwise_cons.2 ⟨fun t ht _ hret => hr.past t ht hret, h.apart⟩,
    forall_mem_cons.2 ⟨fun p hp hown => hpassed p (hr.covered p hp hown),
        fun t ht p hp hown => hpassed p (h.passed t ht p hp hown)⟩, h.shape,
    fun c hc => ⟨forall_mem_cons.2 ⟨fun _ => ?_, (h.safe c hc).past⟩,
      fun p hp hown => hpassed p ((h.safe c hc).covered p hp hown)⟩, ?_⟩
  · exact hr.logged k rfl hlogged c hc
  · rintro r ⟨⟩
    exact ⟨forall_mem_cons.2 ⟨fun _ => Nat.le_refl _, hr.safe.past⟩,
      fun p hp hown => hpassed p (hr.covered p hp hown), nofun, nofun, hr.lists⟩

end

end Steps

/-- A reader of a directory log is started only where the last line that
ends in a newline reads as a record. -/
def orderly {N : Nat} (s : State N) : Op N → Bool
  | .lane i (.start _) => (s.lanes i).log.clean
  | _ => true

theorem laneOk_exec {versions : List Int} {dataEnded : Bool} {l l' : Lane} {op : LaneOp}
    (h : LaneOk own l) (hclean : ∀ view, op = .start view → l.log.clean = true)
    (hexec : l.exec own versions dataEnded op = some l') : LaneOk own l' := by
  cases op with
  | start view => exact laneOk_start h (hclean view rfl) hexec
  | take rolloutId groups floor => exact laneOk_take h hexec
  | select view => exact laneOk_select h hexec
  | fail => exact laneOk_fail h hexec
  | append => exact laneOk_append h hexec
  | tear n dies => exact laneOk_tear h hexec
  | giveBack => exact laneOk_giveBack h hexec
  | crash => exact laneOk_crash h hexec

theorem laneOk_new (own : Nat → Bool) {objects : Bool} :
    LaneOk own ⟨if objects then .objects [] else .file [], none, []⟩ := by
  have hzero : ∀ c, (if objects then Log.objects [] else .file []).MayRestart c → c = 0 := by
    intro c hc
    cases objects
    · rcases hc with hc | ⟨line, hline, -⟩ | ⟨-, hc⟩
      · cases hc
      · cases hline
      · exact hc
    · rcases hc with ⟨text, htext, -⟩ | ⟨-, hc⟩
      · cases htext
      · exact hc
  refine ⟨nofun, .nil, nofun, ?_, fun c hc => ⟨nofun, fun p hp => ?_⟩, nofun⟩
  · cases objects
    · exact torn_nil
    · exact nofun
  · rw [hzero c hc] at hp
    cases hp

theorem lanesOk_of_reachable {N : Nat} {objects : Fin N → Bool} {s : State N}
    (h : (lanes objects orderly).Reachable s) : ∀ i, LaneOk (owns i) (s.lanes i) := by
  refine System.guarded_invariant (P := fun s => ∀ i, LaneOk (owns i) (s.lanes i)) ?_ ?_ h
  · exact fun i => laneOk_new (owns i)
  · intro s s' op hs hguard hexec
    cases op with
    | grow versions =>
      obtain ⟨-, hexec⟩ := Option.ite_none_left_eq_some.1 hexec
      cases hexec
      exact hs
    | endData =>
      cases hexec
      exact hs
    | lane j op =>
      obtain ⟨l, hl, rfl⟩ := Option.map_eq_some_iff.1 hexec
      refine (forall_update_iff s.lanes fun i => LaneOk (owns i)).2
        ⟨laneOk_exec (hs j) ?_ hl, fun i _ => hs i⟩
      rintro view rfl
      exact hguard

def Lane.returned (l : Lane) : List Nat := (l.takes.filter Take.returned).flatMap Take.chosen

theorem mem_returned : p ∈ l.returned ↔ ∃ t ∈ l.takes, t.returned = true ∧ p ∈ t.chosen := by
  unfold returned
  simp only [mem_flatMap, mem_filter, and_assoc]

theorem LaneOk.nodup_returned (h : LaneOk own l) : l.returned.Nodup := by
  refine nodup_flatMap.2 ⟨fun t ht => ?_, ?_⟩
  · exact (h.takes t (mem_filter.1 ht).1).nodup
  · refine (pairwise_filter.2 ?_)
    refine (h.apart.imp_of_mem ?_)
    intro newer older hnewer holder hapart hret hret' p hp hp'
    have hge := (((h.takes newer hnewer).mem p).1 (.inl hp)).1
    have hlt := (((h.takes older holder).mem p).1 (.inl hp')).2.1
    have hle := hapart hret hret'
    omega

/-- The lane passed the position: a reader is behind it, or a take was. -/
def Lane.reached (l : Lane) (p : Nat) : Prop :=
  (∃ r, l.reader = some r ∧ p < r.read) ∨ ∃ t ∈ l.takes, p < t.stop

theorem LaneOk.passed_of_reached (h : LaneOk own l) (hown : own p = true) (hp : l.reached p) :
    Passed l p := by
  rcases hp with ⟨r, hr, hlt⟩ | ⟨t, ht, hlt⟩
  · exact (h.alive r hr).covered p hlt hown
  · exact h.passed t ht p hlt hown

theorem mem_takes_of_returned {t : Take} (ht : t ∈ l.selected)
    (hret : t.returned = true) : t ∈ l.takes := by
  unfold selected at ht
  split at ht
  · exact ht
  unfold Lane.drop at ht
  split at ht
  · exact ht
  · rcases mem_cons.1 ht with rfl | ht
    · cases hret
    · exact ht

theorem LaneOk.owns_returned (h : LaneOk own l) (hp : p ∈ l.returned) : own p = true := by
  obtain ⟨t, ht, -, hp⟩ := mem_returned.1 hp
  exact (((h.takes t ht).mem p).1 (.inl hp)).2.2

/-- In a run without a restart on an unreadable line: no position is
returned twice, by one lane or by two; every position of a lane that it
passed is returned, stale, or of a take that has not returned; and a reader
goes on behind everything its lane returned. -/
theorem returned_once (N : Nat) (objects : Fin N → Bool) (s : State N)
    (h : (lanes objects orderly).Reachable s) : (∀ i, (s.lanes i).returned.Nodup)
      ∧ (∀ i j, i ≠ j → ∀ p ∈ (s.lanes i).returned, p ∉ (s.lanes j).returned)
      ∧ (∀ i p, owns i p = true → (s.lanes i).reached p →
        p ∈ (s.lanes i).returned ∨ ∃ t ∈ (s.lanes i).selected, p ∈ t.stale
            ∨ (t.returned = false ∧ p ∈ t.chosen)) ∧ ∀ i r, (s.lanes i).reader = some r →
        ∀ p ∈ (s.lanes i).returned, p < r.front := by
  have hok := lanesOk_of_reachable h
  refine ⟨fun i => (hok i).nodup_returned, fun i j hij p hi hj => ?_,
    fun i p hown hp => ?_, fun i r hr p hp => ?_⟩
  · have hi := (hok i).owns_returned hi
    have hj := (hok j).owns_returned hj
    unfold owns at hi hj
    rw [beq_iff_eq] at hi hj
    exact hij (Fin.ext (hi.symm.trans hj))
  · obtain ⟨t, ht, hp⟩ := (hok i).passed_of_reached hown hp
    cases hret : t.returned with
    | false => exact .inr ⟨t, ht, hp.symm.imp id fun h => ⟨hret, h⟩⟩
    | true =>
      rcases hp with hp | hp
      · exact .inl (mem_returned.2 ⟨t, mem_takes_of_returned ht hret, hret, hp⟩)
      · exact .inr ⟨t, ht, .inl hp⟩
  · obtain ⟨t, ht, hret, hp⟩ := mem_returned.1 hp
    have hlt := ((((hok i).takes t ht).mem p).1 (.inl hp)).2.1
    exact Nat.lt_of_lt_of_le hlt (((hok i).alive r hr).past t ht hret)

def takeTwo (rolloutId : Nat) : List (Op 1) :=
  [.lane 0 (.take rolloutId 2 none), .lane 0 (.select 2)]

/-- A take of two groups returns after a restart behind a torn line. -/
def tornOps : List (Op 1) := [.grow [0, 0], .lane 0 (.start 2)] ++ takeTwo 0
    ++ [.lane 0 (.tear 5 true), .lane 0 (.start 2)] ++ takeTwo 1
    ++ [.lane 0 .append, .lane 0 .giveBack]

/-- The run goes on: the process dies, and its successor takes again. -/
def gluedOps : List (Op 1) := tornOps ++ [.lane 0 .crash, .lane 0 (.start 2)] ++ takeTwo 2
    ++ [.lane 0 .append, .lane 0 .giveBack]

def returnedBy (allowed : State 1 → Op 1 → Bool) (objects : Fin 1 → Bool)
    (ops : List (Op 1)) : Option (List Nat) :=
  (System.play allowed State.exec (State.new objects) ops).map fun s =>
    (s.lanes 0).returned

/-- A torn record is no harm to the take after it. -/
theorem returned_once_torn : returnedBy orderly (fun _ => false) tornOps = some [0, 1]
      ∧ ∃ s, System.play orderly State.exec (State.new fun _ => false) tornOps
          = some s ∧ (s.lanes 0).returned.Nodup := by
  refine ⟨by decide +kernel, ?_⟩
  have hplay : (System.play orderly State.exec
      (State.new fun _ : Fin 1 => false) tornOps).isSome = true := by decide +kernel
  obtain ⟨s, hs⟩ := Option.isSome_iff_exists.1 hplay
  exact ⟨s, hs, (returned_once 1 _ s (System.reachable_play hs)).1 0⟩

/-- After a second restart the same groups are returned again. -/
theorem glued_record_lost : returnedBy (fun _ _ => true) (fun _ => false) gluedOps
      = some [0, 1, 0, 1] := by decide +kernel

end Yeto.Lanes
