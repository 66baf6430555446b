/-
What a reader of the object store finds behind a pointer.

`Base` is about the directory, the state file and the objects, `PushOk` and
`PullOk` about the holder of the lock. The list of a push is in the order of
the ranks, so all that a pointer names is in the store when its turn comes.
But a push takes its list from one scan and its bytes from the live directory,
and a pull replaces a pointer that was not pushed (`dangling_pointer`).
-/
import Yeto.Mirror.Model
import Yeto.Lib.Guards

namespace Yeto.Mirror

open Lib SortedMap List State TreeMirror

variable {K C : Type} [LinearOrder K] {T : TreeMirror K C} {s : State K C}

/-- A content that the directory or the object store has under a key. -/
def Seen (s : State K C) (k : K) (c : C) : Prop :=
  (∃ f, s.files.find k = some f ∧ f.content = c) ∨ s.objects.find k = some c

structure Needs (T : TreeMirror K C) (p : K) (c : C) (k : K) : Prop where
  pointer : T.pointers p = true
  named : k ∈ T.names c
  plain : T.pointers k = false

/-- A file that is as the state noted it is in the store as it is. -/
def Synced (T : TreeMirror K C) (s : State K C) (state : SortedMap K Stamp) : Prop :=
  ∀ k f, s.files.find k = some f → state.find k = some (T.stamp f) →
    s.objects.find k = some f.content

structure Base (T : TreeMirror K C) (s : State K C) : Prop where
  held : ∀ p c k, Seen s p c → Needs T p c k → ∃ f, s.files.find k = some f
  present : ∀ p c k, s.objects.find p = some c → Needs T p c k →
    ∀ f, s.files.find k = some f → s.objects.find k = some f.content
  synced : Synced T s s.pushed
  newest : ∀ k c, s.newest.find k = some c → T.pointers k = true
    ∧ (∃ f, s.files.find k = some f ∧ f.content = c) ∧ (k ∈ s.dirty ∨ s.objects.find k = some c)
  dirty : ∀ k ∈ s.dirty, ∃ f, s.files.find k = some f

/-- A file that came after the scan of a push. -/
structure Fresh (T : TreeMirror K C) (s : State K C) (k : K) (f : File C) : Prop where
  plain : T.pointers k = false
  stamp : s.pushed.find k ≠ some (T.stamp f)
  unnamed : ∀ p c, Seen s p c → ¬ Needs T p c k

structure PushOk (T : TreeMirror K C) (s : State K C) (p : Push K) : Prop where
  sub : ∀ k stamp, p.state.find k = some stamp → s.pushed.find k = some stamp
  fresh : ∀ k ∉ p.seen, ∀ f, s.files.find k = some f → Fresh T s k f
  changed : ∀ e ∈ p.changed, e.1 ∈ p.seen ∧ ∃ f, s.files.find e.1 = some f ∧ e.2 = T.stamp f
  noted : ∀ k ∈ p.seen, ∀ f, s.files.find k = some f →
    p.state.find k = some (T.stamp f) ∨ (k, T.stamp f) ∈ p.changed
  ranked : p.changed.Pairwise fun a b => T.uploadRank a.1 ≤ T.uploadRank b.1

/-- What a pull knows of the key it is at. -/
def FetchOk (T : TreeMirror K C) (s : State K C) : Fetch K C → Prop
  | .idle => True
  | .fetched k c => s.objects.find k = some c ∧ (T.pointers k = false → s.files.find k = none)
  | .replaced k => ∀ f, s.files.find k = some f → s.objects.find k = some f.content

structure PullOk (T : TreeMirror K C) (s : State K C) (p : Pull K C) : Prop where
  calm : ∀ k ∈ s.dirty, T.pointers k = false
  synced : Synced T s p.state
  fetch : FetchOk T s p.at_

def JobOk (T : TreeMirror K C) (s : State K C) : Option (Job K C) → Prop
  | none => True
  | some (.push p) => PushOk T s p
  | some (.pull p) => PullOk T s p

structure Ok (T : TreeMirror K C) (s : State K C) : Prop where
  base : Base T s
  job : JobOk T s s.job

theorem Base.setJob (hs : Base T s) (j : Option (Job K C)) : Base T { s with job := j } :=
  { hs with }

theorem ok_new : Ok T (.new : State K C) := by
  refine ⟨⟨?_, nofun, nofun, nofun, nofun⟩, trivial⟩
  rintro p c k (⟨f, hf, -⟩ | hc)
  · cases hf
  · cases hc

theorem not_needs_of_free {k : K} (h : s.free T k = true) (p : K) (c : C)
    (hc : Seen s p c) : ¬ Needs T p c k := by
  rintro ⟨hptr, hnamed, -⟩
  have hapart : (!(T.pointers p && (T.names c).contains k)) = true := by
    obtain ⟨hfiles, hobjects⟩ := Bool.and_eq_true_iff.1 h
    obtain ⟨f, hf, rfl⟩ | hc := hc
    · exact all_eq_true.1 hfiles _ ((mem_entries_iff _ _ _).2 hf)
    · exact all_eq_true.1 hobjects _ ((mem_entries_iff _ _ _).2 hc)
  simp [hptr, hnamed] at hapart

theorem Fresh.congr {s' : State K C} {k : K} {f : File C} (h : Fresh T s k f)
    (hseen : ∀ p c, T.pointers p = true → Seen s' p c → Seen s p c)
    (hpushed : ∀ stamp, s'.pushed.find k = some stamp → s.pushed.find k = some stamp) :
    Fresh T s' k f where
  plain := h.plain
  stamp hstamp := h.stamp (hpushed _ hstamp)
  unnamed p c hc hneeds := h.unnamed p c (hseen p c hneeds.pointer hc) hneeds

section Files

variable {k : K} {c : C} {t : Nat} {n : SortedMap K C} {d : List K} {j : Option (Job K C)}

def State.put (s : State K C) (k : K) (c : C) (t : Nat) (n : SortedMap K C)
    (d : List K) (j : Option (Job K C)) : State K C :=
  { s with files := s.files.insert k ⟨c, t⟩, newest := n, dirty := d, job := j }

theorem keep_put {k' : K} {f : File C} (hk : k' ≠ k) (hf : s.files.find k' = some f) :
    (s.put k c t n d j).files.find k' = some f := (find_insert_ne _ _ hk).trans hf

theorem Synced.put {state : SortedMap K Stamp} (hs : Synced T s state)
    (hnew : state.find k = some (T.size c, t) → s.objects.find k = some c) :
    Synced T (s.put k c t n d j) state := by
  intro k' f hf hstamp
  obtain ⟨rfl, rfl⟩ | ⟨-, hf⟩ := find_insert_cases hf
  · exact hnew hstamp
  · exact hs k' f hf hstamp

theorem Base.put (hs : Base T s) (hheld : ∀ k', Needs T k c k' → ∃ f, s.files.find k' = some f)
    (hfree : ∀ p c', Seen s p c' → ¬ Needs T p c' k)
    (hnew : s.pushed.find k = some (T.size c, t) → s.objects.find k = some c)
    (hn : ∀ k' c', n.find k' = some c' → T.pointers k' = true
      ∧ (k' ∈ d ∨ s.objects.find k' = some c')
      ∧ ((k' = k ∧ c' = c) ∨ k' ≠ k ∧ s.newest.find k' = some c'))
    (hd : ∀ k' ∈ d, k' = k ∨ k' ∈ s.dirty) : Base T (s.put k c t n d j) := by
  refine ⟨?_, ?_, hs.synced.put hnew, ?_, ?_⟩
  · intro p c' k' hc' hneeds
    have hor : (p = k ∧ c' = c) ∨ Seen s p c' := by
      obtain ⟨f, hf, rfl⟩ | hc' := hc'
      · obtain ⟨rfl, rfl⟩ | ⟨-, hf⟩ := find_insert_cases hf
        · exact .inl ⟨rfl, rfl⟩
        · exact .inr (.inl ⟨f, hf, rfl⟩)
      · exact .inr (.inr hc')
    obtain ⟨rfl, rfl⟩ | hold := hor
    · obtain ⟨f, hf⟩ := hheld k' hneeds
      refine ⟨f, keep_put ?_ hf⟩
      rintro rfl
      exact absurd hneeds.pointer (by rw [hneeds.plain]; decide)
    · obtain ⟨f, hf⟩ := hs.held p c' k' hold hneeds
      refine ⟨f, keep_put ?_ hf⟩
      rintro rfl
      exact hfree p c' hold hneeds
  · intro p c' k' hc' hneeds f hf
    obtain ⟨rfl, -⟩ | ⟨-, hf⟩ := find_insert_cases hf
    · exact absurd hneeds (hfree p c' (.inr hc'))
    · exact hs.present p c' k' hc' hneeds f hf
  · intro k' c' h
    obtain ⟨hptr, hor, ⟨rfl, rfl⟩ | ⟨hne, h⟩⟩ := hn k' c' h
    · exact ⟨hptr, ⟨_, find_insert_self _ _ _, rfl⟩, hor⟩
    · obtain ⟨-, ⟨f, hf, rfl⟩, -⟩ := hs.newest k' c' h
      exact ⟨hptr, ⟨f, keep_put hne hf, rfl⟩, hor⟩
  · intro k' hk'
    by_cases hk : k' = k
    · exact ⟨⟨c, t⟩, hk ▸ find_insert_self _ _ _⟩
    · obtain ⟨f, hf⟩ := hs.dirty k' ((hd k' hk').resolve_left hk)
      exact ⟨f, keep_put hk hf⟩

omit [LinearOrder K] in
theorem not_needs_pointer (hk : T.pointers k = true) {p : K} {c' : C} :
    ¬ Needs T p c' k := fun h => absurd h.plain (by rw [hk]; decide)

theorem Base.writePointer (hs : Base T s) (hk : T.pointers k = true)
    (hnew : s.pushed.find k ≠ some (T.size c, t))
    (hnames : ∀ k' ∈ T.names c, T.pointers k' = true ∨ s.files.contains k' = true) :
    Base T (s.put k c t (s.newest.insert k c) (k :: s.dirty) j) := by
  refine hs.put (fun k' h => ?_) (fun _ _ _ => not_needs_pointer hk)
    (fun h => absurd h hnew) (fun k' c' h => ?_) fun k' h => mem_cons.1 h
  · exact (contains_iff _ _).1 ((hnames k' h.named).resolve_left (by rw [h.plain]; decide))
  · obtain ⟨rfl, rfl⟩ | ⟨hne, h⟩ := find_insert_cases h
    · exact ⟨hk, .inl (by simp), .inl ⟨rfl, rfl⟩⟩
    · obtain ⟨hptr, -, hor⟩ := hs.newest k' c' h
      exact ⟨hptr, hor.imp_left (mem_cons_of_mem _), .inr ⟨hne, h⟩⟩

theorem Base.writeFile (hs : Base T s) (hk : T.pointers k = false)
    (hnew : s.pushed.find k ≠ some (T.size c, t)) (hfree : s.free T k = true) :
    Base T (s.put k c t s.newest (k :: s.dirty) j) := by
  have hplain : ¬ T.pointers k = true := by rw [hk]; decide
  refine hs.put (fun k' h => absurd h.pointer hplain) (not_needs_of_free hfree)
    (fun h => absurd h hnew) (fun k' c' h => ?_) fun k' h => mem_cons.1 h
  obtain ⟨hptr, -, hor⟩ := hs.newest k' c' h
  refine ⟨hptr, hor.imp_left (mem_cons_of_mem _), .inr ⟨?_, h⟩⟩
  rintro rfl
  exact hplain hptr

theorem Base.remove (hs : Base T s) (hfree : s.free T k = true) : Base T (s.remove k) := by
  have hkeep : ∀ {k' f}, k' ≠ k → s.files.find k' = some f →
      (s.files.erase k).find k' = some f := fun hk hf => (find_erase_ne _ hk).trans hf
  refine ⟨fun p c k' hc hneeds => ?_, fun p c k' hc hneeds f hf =>
    hs.present p c k' hc hneeds f (find_erase_cases hf).2,
    fun k' f hf => hs.synced k' f (find_erase_cases hf).2, fun k' c h => ?_, fun k' h => ?_⟩
  · have hold : Seen s p c := hc.imp_left fun ⟨f, hf, heq⟩ =>
      ⟨f, (find_erase_cases hf).2, heq⟩
    obtain ⟨f, hf⟩ := hs.held p c k' hold hneeds
    refine ⟨f, hkeep ?_ hf⟩
    rintro rfl
    exact not_needs_of_free hfree p c hold hneeds
  · obtain ⟨hne, h⟩ := find_erase_cases h
    obtain ⟨hptr, ⟨f, hf, rfl⟩, hor⟩ := hs.newest k' c h
    refine ⟨hptr, ⟨f, hkeep hne hf, rfl⟩, ?_⟩
    exact hor.imp_left fun h => mem_filter.2 ⟨h, decide_eq_true hne⟩
  · obtain ⟨h, hne⟩ := mem_filter.1 h
    obtain ⟨f, hf⟩ := hs.dirty k' h
    exact ⟨f, hkeep (of_decide_eq_true hne) hf⟩

/-- A push does not see a plain file that is written behind its scan. -/
theorem PushOk.write {p : Push K} (hp : PushOk T s p) (hk : T.pointers k = false)
    (hnew : s.pushed.find k ≠ some (T.size c, t)) (hfree : s.free T k = true)
    (hlate : k ∉ p.seen) : PushOk T (s.put k c t n d j) p := by
  have hne : ∀ {k'}, k' ∈ p.seen → k' ≠ k := fun hmem heq => hlate (heq ▸ hmem)
  have hseen : ∀ p' c', T.pointers p' = true → Seen (s.put k c t n d j) p' c' → Seen s p' c' := by
    rintro p' c' hptr (⟨f, hf, rfl⟩ | hc)
    · obtain ⟨rfl, -⟩ | ⟨-, hf⟩ := find_insert_cases hf
      · rw [hk] at hptr
        cases hptr
      · exact .inl ⟨f, hf, rfl⟩
    · exact .inr hc
  refine ⟨hp.sub, fun k' hk' f hf => ?_, fun e he => ?_, fun k' hk' f hf => ?_, hp.ranked⟩
  · obtain ⟨rfl, rfl⟩ | ⟨-, hf⟩ := find_insert_cases hf
    · exact ⟨hk, hnew, fun p' c' hc hneeds =>
        not_needs_of_free hfree p' c' (hseen p' c' hneeds.pointer hc) hneeds⟩
    · exact (hp.fresh k' hk' f hf).congr hseen fun _ h => h
  · obtain ⟨hmem, f, hf, heq⟩ := hp.changed e he
    exact ⟨hmem, f, keep_put (hne hmem) hf, heq⟩
  · exact hp.noted k' hk' f ((find_insert_ne _ _ (hne hk')).symm.trans hf)

end Files

section PushSteps

variable {p : Push K}

omit [LinearOrder K] in
theorem mem_byRank {l : List (K × Stamp)} {e : K × Stamp} : e ∈ T.byRank l ↔ e ∈ l := by
  have hrank : T.uploadRank e.1 = 0 ∨ T.uploadRank e.1 = 1 ∨ T.uploadRank e.1 = 2 := by
    unfold uploadRank
    split
    · exact .inr (.inr rfl)
    · split
      · exact .inr (.inl rfl)
      · exact .inl rfl
  unfold byRank
  simp only [mem_append, mem_filter, decide_eq_true_eq, ← and_or_left, or_assoc, hrank, and_true]

omit [LinearOrder K] in
theorem byRank_ranked (l : List (K × Stamp)) :
    (T.byRank l).Pairwise fun a b => T.uploadRank a.1 ≤ T.uploadRank b.1 := by
  have hrank : ∀ {r : Nat} {e : K × Stamp},
      e ∈ (l.filter fun e => T.uploadRank e.1 = r) → T.uploadRank e.1 = r :=
    fun he => of_decide_eq_true (mem_filter.1 he).2
  have hconst : ∀ r, (l.filter fun e => T.uploadRank e.1 = r).Pairwise
      fun a b => T.uploadRank a.1 ≤ T.uploadRank b.1 := fun r =>
    pairwise_of_forall_mem_list fun a ha b hb =>
      ((hrank ha).trans (hrank hb).symm).le
  refine pairwise_append.2 ⟨pairwise_append.2
    ⟨hconst 0, hconst 1, fun a ha b hb => ?_⟩, hconst 2, fun a ha b hb => ?_⟩
  · have := hrank ha
    omega
  · have hb := hrank hb
    rcases mem_append.1 ha with ha | ha
    · have := hrank ha
      omega
    · have := hrank ha
      omega

theorem mem_changed {e : K × Stamp} : e ∈ s.changed T
    ↔ (∃ f, s.files.find e.1 = some f ∧ e.2 = T.stamp f) ∧ s.pushed.find e.1 ≠ some e.2 := by
  unfold changed
  rw [mem_filter, mem_map, decide_eq_true_eq]
  refine and_congr_left fun _ => ⟨?_, ?_⟩
  · rintro ⟨⟨k, f⟩, hf, rfl⟩
    exact ⟨f, (mem_entries_iff _ _ _).1 hf, rfl⟩
  · rintro ⟨f, hf, he⟩
    exact ⟨(e.1, f), (mem_entries_iff _ _ _).2 hf, by rw [← he]⟩

theorem startPush_ok (j : Option (Job K C)) : PushOk T { s with job := j } (s.startPush T) := by
  refine ⟨fun _ _ h => h, fun k hk f hf => absurd ((mem_keys_iff _ _).2 ⟨f, hf⟩) hk,
    fun e he => ?_, fun k _ f hf => ?_, byRank_ranked _⟩
  · obtain ⟨f, hf, heq⟩ := (mem_changed.1 (mem_byRank.1 he)).1
    exact ⟨(mem_keys_iff _ _).2 ⟨f, hf⟩, f, hf, heq⟩
  by_cases h : s.pushed.find k = some (T.stamp f)
  · exact .inl h
  · exact .inr (mem_byRank.2 (mem_changed.2 ⟨⟨f, hf, rfl⟩, h⟩))

variable {k : K} {f : File C} {stamp : Stamp} {rest : List (K × Stamp)} {j : Option (Job K C)}

/-- WHAT A POINTER NAMES GOES FIRST: when its turn comes, every file it names
is in the store as it is. -/
theorem PushOk.needed_present (hs : Base T s) (hp : PushOk T s p)
    (hchanged : p.changed = (k, stamp) :: rest) {c : C} (hc : Seen s k c) {k' : K}
    (hneeds : Needs T k c k') {g : File C} (hg : s.files.find k' = some g) :
    s.objects.find k' = some g.content := by
  have hseen : k' ∈ p.seen := by
    by_contra hlate
    exact (hp.fresh k' hlate g hg).unnamed k c hc hneeds
  rcases hp.noted k' hseen g hg with h | h
  · exact hs.synced _ g hg (hp.sub _ _ h)
  · -- the list has no file of a lower rank behind a pointer
    have hranked := hp.ranked
    rw [hchanged] at h hranked
    have hle : T.uploadRank k ≤ T.uploadRank k' := by
      rcases mem_cons.1 h with heq | hrest
      · exact (congrArg (fun e => T.uploadRank e.1) heq).ge
      · exact (pairwise_cons.1 hranked).1 _ hrest
    have hone : (if T.records k' then 1 else 0) ≤ 1 := by split <;> decide
    unfold uploadRank at hle
    rw [if_pos hneeds.pointer, hneeds.plain] at hle
    exact absurd (hle.trans hone) (by decide)

/-- The file at the head of the list goes to the store; the state is saved,
or the process dies before. -/
theorem Base.upload (hs : Base T s) (hp : PushOk T s p)
    (hchanged : p.changed = (k, stamp) :: rest) (hf : s.files.find k = some f)
    {pushed : SortedMap K Stamp} (hsub : ∀ k' stamp', k' ≠ k → pushed.find k' = some stamp' →
      s.pushed.find k' = some stamp') : Base T { s with
      objects := s.objects.insert k f.content, pushed := pushed, job := j } := by
  have hlive : ∀ {k' g}, s.files.find k' = some g → (k' ≠ k → s.objects.find k' = some g.content) →
      (s.objects.insert k f.content).find k' = some g.content := by
    intro k' g hg h
    by_cases hk : k' = k
    · subst hk
      cases hf.symm.trans hg
      exact find_insert_self _ _ _
    · exact (find_insert_ne _ _ hk).trans (h hk)
  refine ⟨fun p' c k' hc hneeds => ?_, fun p' c k' hc hneeds g hg => hlive hg fun _ => ?_,
    fun k' g hg hstamp => hlive hg fun hk => hs.synced k' g hg (hsub k' _ hk hstamp),
    fun k' c h => ?_, hs.dirty⟩
  · refine hs.held p' c k' ?_ hneeds
    rcases hc with hc | hc
    · exact .inl hc
    · obtain ⟨rfl, rfl⟩ | ⟨-, hc⟩ := find_insert_cases hc
      · exact .inl ⟨f, hf, rfl⟩
      · exact .inr hc
  · obtain ⟨rfl, rfl⟩ | ⟨-, hc⟩ := find_insert_cases hc
    · exact hp.needed_present hs hchanged (.inl ⟨f, hf, rfl⟩) hneeds hg
    · exact hs.present p' c k' hc hneeds g hg
  · obtain ⟨hptr, ⟨g, hg, rfl⟩, hor⟩ := hs.newest k' c h
    exact ⟨hptr, ⟨g, hg, rfl⟩, hor.imp_right fun h => hlive hg fun _ => h⟩

theorem PushOk.uploaded (hp : PushOk T s p) (hchanged : p.changed = (k, stamp) :: rest)
    (hf : s.files.find k = some f) : PushOk T { s with
        objects := s.objects.insert k f.content, pushed := p.state.insert k stamp, job := j }
      { p with state := p.state.insert k stamp, changed := rest } := by
  obtain ⟨hsub, hfresh, hfiles, hnoted, hranked⟩ := hp
  rw [hchanged] at hfiles hnoted hranked
  obtain ⟨hmem, g, hg, heq⟩ := hfiles (k, stamp) (by simp)
  cases hf.symm.trans hg
  refine ⟨fun _ _ h => h, fun k' hk' g hg => (hfresh k' hk' g hg).congr ?_ ?_,
    fun e he => hfiles e (mem_cons_of_mem _ he), ?_, (pairwise_cons.1 hranked).2⟩
  · rintro p' c' - (hc | hc)
    · exact .inl hc
    · obtain ⟨rfl, rfl⟩ | ⟨-, hc⟩ := find_insert_cases hc
      · exact .inl ⟨f, hf, rfl⟩
      · exact .inr hc
  · intro stamp' h
    obtain ⟨rfl, -⟩ | ⟨-, h⟩ := find_insert_cases h
    · exact absurd hmem hk'
    · exact hsub k' _ h
  · intro k' hk' g hg
    show (p.state.insert k stamp).find k' = _ ∨ _
    by_cases hk : k' = k
    · subst hk
      cases hf.symm.trans hg
      exact .inl ((find_insert_self _ _ _).trans (congrArg some heq))
    · rw [find_insert_ne _ _ hk]
      exact (hnoted k' hk' g hg).imp_right fun h =>
        (mem_cons.1 h).resolve_left fun heq => hk (congrArg Prod.fst heq)

/-- The object of a file that is gone: no pointer names it, nor a file that
came after the scan. -/
theorem Base.delete (hs : Base T s) (hgone : ∀ g, s.files.find k = some g → Fresh T s k g) :
    Base T { s with objects := s.objects.erase k, job := j } := by
  have hkeep : ∀ {k' : K} {c : C}, k' ≠ k → s.objects.find k' = some c →
      (s.objects.erase k).find k' = some c := fun hne h => (find_erase_ne _ hne).trans h
  refine ⟨fun p c k' hc => hs.held p c k' (hc.imp_right fun h => (find_erase_cases h).2),
    fun p c k' hc hneeds g hg => ?_, fun k' g hg h => hkeep ?_ (hs.synced k' g hg h),
    fun k' c h => ?_, hs.dirty⟩
  · have hold := (find_erase_cases hc).2
    refine hkeep ?_ (hs.present p c k' hold hneeds g hg)
    rintro rfl
    exact (hgone g hg).unnamed p c (.inr hold) hneeds
  · rintro rfl
    exact (hgone g hg).stamp h
  · obtain ⟨hptr, ⟨g, hg, rfl⟩, hor⟩ := hs.newest k' c h
    refine ⟨hptr, ⟨g, hg, rfl⟩, hor.imp_right (hkeep ?_)⟩
    rintro rfl
    exact absurd hptr (by rw [(hgone g hg).plain]; decide)

theorem PushOk.newest_present (hs : Base T s) (hp : PushOk T s p) (hnone : p.changed = [])
    {c : C} (h : s.newest.find k = some c) : s.objects.find k = some c := by
  obtain ⟨hptr, ⟨f, hf, rfl⟩, -⟩ := hs.newest k c h
  have hseen : k ∈ p.seen := by
    by_contra hlate
    exact absurd hptr (by rw [(hp.fresh k hlate f hf).plain]; decide)
  rcases hp.noted k hseen f hf with h | h
  · exact hs.synced k f hf (hp.sub _ _ h)
  · rw [hnone] at h
    cases h

theorem Ok.pushNext (hs : Base T s) (hp : PushOk T s p) : Ok T (s.pushNext p) := by
  unfold State.pushNext
  split
  next rel stamp rest hchanged =>
    split
    · exact ⟨hs.setJob _, trivial⟩
    next f hf =>
      refine ⟨hs.upload hp hchanged hf fun k' stamp' hk h => ?_, hp.uploaded hchanged hf⟩
      exact hp.sub _ _ ((find_insert_ne _ _ hk).symm.trans h)
  next hnone =>
    split
    next rel rest hgone =>
      have hrel : rel ∈ p.gone := by rw [hgone]; simp
      have hlate : rel ∉ p.seen := by simpa using (mem_filter.1 hrel).2
      refine ⟨hs.delete (hp.fresh rel hlate), fun k' stamp' h =>
        hp.sub k' stamp' (find_erase_cases h).2, fun k' hk' f hf =>
        (hp.fresh k' hk' f hf).congr (fun p' c' _ hc => hc.imp_right fun h =>
          (find_erase_cases h).2) fun _ h => h, hp.changed, fun k' hk' g hg => ?_, hp.ranked⟩
      refine (hp.noted k' hk' g hg).imp_left fun h => (find_erase_ne _ ?_).trans h
      rintro rfl
      exact hlate hk'
    · refine ⟨⟨hs.held, hs.present,
        fun k f hf h => hs.synced k f hf (hp.sub _ _ h), ?_, nofun⟩, trivial⟩
      intro k b h
      obtain ⟨hptr, hfile, -⟩ := hs.newest k b h
      exact ⟨hptr, hfile, .inr (hp.newest_present hs hnone h)⟩

end PushSteps

theorem Ok.replace {p : Pull K C} {k : K} {c : C} {t : Nat} (hs : Base T s) (hp : PullOk T s p)
    (hobject : s.objects.find k = some c) (hnew : T.pointers k = false → s.files.find k = none) :
    Ok T (s.put k c t s.newest s.dirty (some (.pull { p with at_ := .replaced k }))) := by
  refine ⟨hs.put (hs.held k c · (.inr hobject)) (fun p' c' hc' hneeds => ?_)
    (fun _ => hobject) (fun k' c' h => ?_) fun k' h => .inr h, hp.calm,
    hp.synced.put fun _ => hobject, fun f hf => ?_⟩
  · -- under a plain key there was no file, so that no pointer names it
    obtain ⟨f, hf⟩ := hs.held p' c' k hc' hneeds
    exact absurd ((hnew hneeds.plain).symm.trans hf) nofun
  · obtain ⟨hptr, -, hor⟩ := hs.newest k' c' h
    refine ⟨hptr, hor, ?_⟩
    by_cases hk : k' = k
    · -- it was pushed, so the store gives it back
      subst hk
      have hstored := hor.resolve_left fun h => by
        rw [hp.calm k' h] at hptr
        cases hptr
      exact .inl ⟨rfl, Option.some.inj (hstored.symm.trans hobject)⟩
    · exact .inr ⟨hk, h⟩
  · obtain ⟨-, rfl⟩ | ⟨hk, -⟩ := find_insert_cases hf
    · exact hobject
    · exact absurd rfl hk

theorem Ok.pullNext {p : Pull K C} {t : Nat} (hs : Base T s) (hp : PullOk T s p) :
    Ok T (s.pullNext T p t) := by
  have hfetch := hp.fetch
  have hidle : ∀ {p' : Pull K C}, p'.state = p.state → FetchOk T s p'.at_ →
      Ok T { s with job := some (.pull p') } := fun h hat =>
    ⟨hs.setJob _, hp.calm, h ▸ hp.synced, hat⟩
  unfold State.pullNext
  split
  next k b hat =>
    rw [hat] at hfetch
    exact Ok.replace hs hp hfetch.1 hfetch.2
  next k hat =>
    rw [hat] at hfetch
    split
    · exact ⟨hs.setJob _, trivial⟩
    next f hf =>
      refine ⟨hs.setJob _, hp.calm, fun k' g hg hstamp => ?_, trivial⟩
      obtain ⟨rfl, -⟩ | ⟨-, hstamp⟩ := find_insert_cases hstamp
      · exact hfetch g hg
      · exact hp.synced k' g hg hstamp
  next hat =>
    split
    next k rest hkeys =>
      split
      · exact hidle rfl (hat ▸ trivial)
      next hskip =>
        split
        · exact hidle rfl (hat ▸ trivial)
        next b hb =>
          refine hidle rfl ⟨hb, fun hk => (contains_eq_false_iff _ _).1 ?_⟩
          rw [hk] at hskip
          simpa using hskip
    · split
      · exact hidle rfl (hat ▸ trivial)
      · exact ⟨{ hs with synced := hp.synced }, trivial⟩

theorem Ok.write (hs : Ok T s) {k : K} {c : C} {t : Nat}
    (hallowed : s.orderly T (.write k c t) = true) : Ok T (s.write T k c t) := by
  have hjob := hs.job
  simp only [orderly, Bool.and_eq_true, decide_eq_true_eq] at hallowed
  obtain ⟨⟨hapart, hnew⟩, hallowed⟩ := hallowed
  unfold State.write
  unfold apart at hapart
  cases hk : T.pointers k with rw [hk] at hallowed hapart
  | true =>
    simp only [if_true, all_eq_true, Bool.or_eq_true] at hallowed
    refine ⟨hs.base.writePointer hk hnew hallowed, ?_⟩
    split at hapart
    next hj => exact hj ▸ trivial
    all_goals cases hapart
  | false =>
    refine ⟨hs.base.writeFile hk hnew hallowed, ?_⟩
    show JobOk T (s.put k c t s.newest (k :: s.dirty) s.job) s.job
    split at hapart
    next hj => exact hj ▸ trivial
    next p hj =>
      rw [hj] at hjob ⊢
      exact hjob.write hk hnew hallowed (by simpa using hapart)
    · cases hapart

/-- Every step of an orderly run keeps the invariant. -/
theorem Ok.exec (hs : Ok T s) {op : Op K C} (hallowed : s.orderly T op = true)
    {s' : State K C} (hexec : s.exec T op = some s') : Ok T s' := by
  have hjob := hs.job
  cases op with
  | write k c t =>
    cases hexec
    exact hs.write hallowed
  | remove k =>
    cases hexec
    obtain ⟨hnone, hfree⟩ := Bool.and_eq_true_iff.1 hallowed
    refine ⟨hs.base.remove hfree, ?_⟩
    show JobOk T _ s.job
    rw [Option.isNone_iff_eq_none.1 hnone]
    trivial
  | push =>
    obtain ⟨-, rfl⟩ := of_guard hexec
    exact ⟨hs.base.setJob _, startPush_ok _⟩
  | pull =>
    obtain ⟨-, rfl⟩ := of_guard hexec
    refine ⟨hs.base.setJob _, fun k hk => ?_, hs.base.synced, trivial⟩
    simpa using all_eq_true.1 hallowed k hk
  | next t =>
    dsimp only [State.exec] at hexec
    split at hexec
    · cases hexec
    next p hj =>
      rw [hj] at hjob
      cases hexec
      exact Ok.pushNext hs.base hjob
    next p hj =>
      rw [hj] at hjob
      cases hexec
      exact Ok.pullNext hs.base hjob
  | tear =>
    dsimp only [State.exec] at hexec
    split at hexec
    next p hj =>
      rw [hj] at hjob
      unfold State.tear at hexec
      split at hexec
      · cases hexec
      next rel stamp rest hchanged =>
        obtain ⟨f, hf, rfl⟩ := Option.map_eq_some_iff.1 hexec
        exact ⟨hs.base.upload hjob hchanged hf fun _ _ _ h => h, trivial⟩
    · cases hexec
  | crash =>
    cases hexec
    exact ⟨hs.base.setJob _, trivial⟩

theorem ok_of_reachable (h : (orderlyRuns T).Reachable s) : Ok T s :=
  System.guarded_invariant ok_new (fun _ _ _ hs ha he => hs.exec ha he) h

/-- WHOLE COMMITS: behind a pointer object stands all that its content names,
as it was written. A push that returns leaves the store the newest pointers,
and what a pull replaces was not written since a push returned. -/
theorem whole_commits (h : (orderlyRuns T).Reachable s) :
    (∀ p c, T.pointers p = true → s.objects.find p = some c →
      ∀ k ∈ T.names c, T.pointers k = false →
        ∃ f, s.files.find k = some f ∧ s.objects.find k = some f.content)
    ∧ (∀ p t s', s.job = some (.push p) → s.exec T (.next t) = some s' →
      p.changed = [] → p.gone = [] → s'.job.isNone
        ∧ ∀ k c, s.newest.find k = some c → s'.objects.find k = some c)
    ∧ ∀ p k c, s.job = some (.pull p) → p.at_ = .fetched k c → k ∉ s.dirty := by
  obtain ⟨hs, hjob⟩ := ok_of_reachable h
  refine ⟨?_, ?_, ?_⟩
  · intro p c hp hc k hk hplain
    have hneeds : Needs T p c k := ⟨hp, hk, hplain⟩
    obtain ⟨f, hf⟩ := hs.held p c k (.inr hc) hneeds
    exact ⟨f, hf, hs.present p c k hc hneeds f hf⟩
  · intro p t s' hj hexec hnone hgone
    rw [hj] at hjob
    simp only [State.exec, hj, State.pushNext, hnone, hgone, Option.some.injEq] at hexec
    subst hexec
    exact ⟨rfl, fun k c hc => hjob.newest_present hs hnone hc⟩
  · intro p k c hj hat hdirty
    rw [hj] at hjob
    have hfetch := hjob.fetch
    rw [hat] at hfetch
    obtain ⟨f, hf⟩ := hs.dirty k hdirty
    exact absurd ((hfetch.2 (hjob.calm k hdirty)).symm.trans hf) nofun

/-- One pointer, `0`, whose content is the keys it names. -/
def latest : TreeMirror Nat (List Nat) :=
  { subtrees := [fun _ => true], pointers := (· == 0), records := (· == 1)
    size := List.length, names := id }

def firstCommit : List (Op Nat (List Nat)) :=
  [.write 2 [] 1, .write 0 [2] 2, .push, .next 3, .next 3]

theorem whole_commits_first : ∃ s, (orderlyRuns latest).Reachable s ∧ s.objects.find 0 = some [2]
    ∧ ∃ f, s.files.find 2 = some f ∧ s.objects.find 2 = some f.content := by
  obtain ⟨s, hs, hzero⟩ : ∃ s, (orderlyRuns latest).Reachable s ∧ s.objects.find 0 = some [2] :=
    System.exists_reachable firstCommit (by decide +kernel)
  exact ⟨s, hs, hzero, (whole_commits hs).1 0 [2] rfl hzero 2 (by decide) rfl⟩

/-- A second commit while the push of the first is at its uploads. -/
def overtaken : List (Op Nat (List Nat)) :=
  [.write 2 [] 1, .write 0 [2] 2, .push, .write 3 [] 3, .write 0 [3] 4, .next 5, .next 5]

def pulledOver : List (Op Nat (List Nat)) :=
  firstCommit ++ [.next 3, .write 3 [] 3, .write 0 [3] 4, .pull, .next 5, .next 5]

def State.inHand (s : State Nat (List Nat)) : Option (List Nat) :=
  match s.job with
  | some (.pull ⟨_, _, _, .fetched 0 c⟩) => some c
  | _ => none

/-- A reader finds a pointer to a file that is not there; and a pull holds
the old pointer, to put it over one that was not pushed. -/
theorem dangling_pointer : (∃ s, (runs latest).Reachable s ∧ s.objects.find 0 = some [3]
      ∧ s.objects.find 3 = none) ∧ ∃ s p c, (runs latest).Reachable s ∧ s.job = some (.pull p)
      ∧ p.at_ = .fetched 0 c ∧ 0 ∈ s.dirty := by
  constructor
  · exact System.exists_reachable overtaken (by decide +kernel)
  · obtain ⟨s, hs, hhand, hdirty⟩ : ∃ s, (runs latest).Reachable s ∧ s.inHand = some [2]
        ∧ 0 ∈ s.dirty := System.exists_reachable pulledOver (by decide +kernel)
    unfold inHand at hhand
    split at hhand
    next c hj => exact ⟨s, _, c, hs, hj, rfl, hdirty⟩
    · cases hhand

end Yeto.Mirror
