/-
One append, one record: both layouts of the index are the one log of
`Lib.Appends` (`one_append_one_record`). Without the conditions of the runs a
sample is in the index twice, or a reader reads a record that nobody wrote
(`doubled_and_mixed`).
-/
import Yeto.SampleIndex.Proofs.File
import Yeto.Lib.Json
import Mathlib.Algebra.GroupWithZero.Nat

namespace Yeto.SampleIndex

open Lib List Option System

theorem isLower_p : 'p'.isLower = true := by decide

def versionKey : Json.Key :=
  ⟨'b', "ehavior_version".toList, by decide, all_eq_true.mp (by decide)⟩

def posKey : Json.Key :=
  ⟨'p', "os".toList, isLower_p, all_eq_true.mp (by decide)⟩

/-- The line of a sample of which only the version is kept. -/
def sampleRecord (pos version : Nat) : Json.Record :=
  ⟨(versionKey, .num version), [(posKey, .num pos)]⟩

def endRecord (pos : Nat) : Json.Record := ⟨(posKey, .num pos), []⟩

/-- What the line of the end begins with; the reader of JSON has numbers
only. -/
def endMark : List Char := "\x7b\"end\": true, ".toList

def numberAt (key : Json.Key) (v : Json.Value) : Option Nat :=
  match v.get key.chars with
  | some (.num n) => some n
  | _ => none

def dumpsLine : Rec Nat → List Char
  | ⟨pos, some version⟩ => (sampleRecord pos version).dumps
  | ⟨pos, none⟩ => endMark ++ (endRecord pos).dumps.tail

def loadsLine (line : List Char) : Option (Rec Nat) :=
  if line.take 14 = endMark then
    ((Json.loads ('{' :: line.drop 14)).bind (numberAt posKey)).map (⟨·, none⟩)
  else (Json.loads line).bind fun v =>
    (numberAt posKey v).bind fun pos =>
      (numberAt versionKey v).map fun version => ⟨pos, some version⟩

theorem loadsLine_dumpsLine (r : Rec Nat) : loadsLine (dumpsLine r) = some r := by
  obtain ⟨pos, _ | version⟩ := r
  · have hmark : (dumpsLine ⟨pos, none⟩).take 14 = endMark := by
      unfold dumpsLine
      rw [show 14 = endMark.length from rfl, take_left]
    have hrest : '{' :: (dumpsLine ⟨pos, none⟩).drop 14 = (endRecord pos).dumps := by
      unfold dumpsLine
      rfl
    unfold loadsLine
    rw [if_pos hmark, hrest, Json.loads_dumps]
    rfl
  · have hmark : (dumpsLine ⟨pos, some version⟩).take 14 ≠ endMark := by
      intro h
      have hthird := congrArg (fun l : List Char => l[2]?) h
      cases hthird
    unfold loadsLine
    rw [if_neg hmark, dumpsLine, Json.loads_dumps]
    rfl

theorem dumpsLine_plain (r : Rec Nat) : '\n' ∉ dumpsLine r := by
  obtain ⟨pos, _ | version⟩ := r <;> intro h
  · rcases mem_append.1 h with h | h
    · exact absurd h (by decide)
    · exact absurd ((endRecord pos).le_dumps _ (mem_of_mem_tail h)) (by decide)
  · exact absurd ((sampleRecord pos version).le_dumps _ h) (by decide)

def lineCodec : Lines.Codec (Rec Nat) :=
  ⟨dumpsLine, loadsLine, loadsLine_dumpsLine, dumpsLine_plain⟩

/-- Runs of both layouts, with creations that made their object not answered
as lost and no torn line cut off that a reader has some of. Every append
that returned added one record with its content; the positions are 0, 1,
2, ..., in the order of appends that do not overlap; nothing is behind the
end; no complete record goes or changes; and what a process has read begins
the index, then and later. -/
theorem one_append_one_record (n : Nat) (α : Type) (codec : Lines.Codec (Rec α)) :
    (∀ s, (Objects.runs n α).Reachable s → Appended s.index s.events
        ∧ ∀ s', (Objects.runs n α).Steps s s' →
          s.index <+: s'.index ∧ ∀ p, (s.procs p).read <+: s'.records)
    ∧ ∀ s, (File.runs n codec).Reachable s → Appended s.index s.events
        ∧ (∃ tail, '\n' ∉ tail ∧ s.file = codec.text s.records ++ tail)
        ∧ ∀ s', (File.runs n codec).Steps s s' →
          s.index <+: s'.index ∧ ∀ p, (s.procs p).read <+: s'.records := by
  constructor <;> intro s hs
  · exact ⟨Objects.appended_of_reachable hs, fun s' => Objects.grows hs⟩
  · exact ⟨File.appended_of_reachable hs, (File.ok_of_reachable hs).text, fun s' => File.grows hs⟩

local instance oneProcess : NeZero 1 := ⟨by decide⟩
local instance twoProcesses : NeZero 2 := ⟨by decide⟩

def race : List (Objects.Op 2 Nat) :=
  [.start 0 (some 3), .start 1 (some 4), .make 0, .make 1, .create 0 true .won,
    .create 1 false .lost, .fetch 0, .giveBack 0, .fetch 1, .make 1,
    .create 1 true .won, .fetch 1, .giveBack 1]

/-- A process dies in the middle of its line; it appends again after its
restart, while another reads. -/
def torn : List (File.Op 2 Nat) :=
  [.start 0 (some 3), .acquire 0, .scan 0, .cut 0, .write 0 22, .crash 0]

def tornAgain : List (File.Op 2 Nat) :=
  torn ++ [.start 0 (some 4), .acquire 0, .scan 0, .cut 0, .look 1, .write 0 30,
    .more 1 30, .write 0 30, .more 1 30, .finish 0, .done 1]

theorem one_append_one_record_race : (∃ s, s.events.head? = some (.returned 1 (some 4))
        ∧ s.index = [(⟨0, some 3⟩, 0), (⟨1, some 4⟩, 1)]
        ∧ (Objects.runs 2 Nat).Reachable s ∧ Appended s.index s.events)
    ∧ ∃ s, s.events.head? = some (.returned 1 (some 4)) ∧ (s.procs 1).read = [⟨0, some 4⟩]
        ∧ (File.runs 2 lineCodec).Reachable s ∧ Appended s.index s.events := by
  obtain ⟨s, hs, hevents, hindex⟩ : ∃ s, (Objects.runs 2 Nat).Reachable s
      ∧ s.events.head? = some (.returned 1 (some 4))
      ∧ s.index = [(⟨0, some 3⟩, 0), (⟨1, some 4⟩, 1)] := exists_reachable race (by decide +kernel)
  obtain ⟨t, ht, hevents', hread⟩ : ∃ s, (File.runs 2 lineCodec).Reachable s
      ∧ s.events.head? = some (.returned 1 (some 4)) ∧ (s.procs 1).read = [⟨0, some 4⟩] :=
    exists_reachable tornAgain (by decide +kernel)
  have hall := one_append_one_record 2 Nat lineCodec
  exact ⟨⟨s, hevents, hindex, hs, (hall.1 s hs).1⟩, ⟨t, hevents', hread, ht, (hall.2 t ht).1⟩⟩

/-- The answer of a creation is lost, and the client asks again. -/
def askedAgain : List (Objects.Op 1 Nat) :=
  [.start 0 (some 3), .make 0, .create 0 true .lost, .fetch 0, .make 0,
    .create 0 true .won, .fetch 0, .giveBack 0]

/-- A reader has the torn line when a writer cuts it off. -/
def readTorn : List (File.Op 2 Nat) :=
  torn ++ [.look 1, .more 1 30, .start 0 (some 4), .acquire 0, .scan 0, .cut 0,
    .write 0 40, .finish 0, .more 1 40, .done 1]

theorem doubled_and_mixed : (∃ s : Objects.State 1 Nat, (System.guarded .new (fun _ _ => true)
        Objects.State.exec).Reachable s ∧ .returned 0 (some 3) ∈ s.events
      ∧ s.index = [(⟨0, some 3⟩, 0), (⟨1, some 3⟩, 0)] ∧ ¬ Appended s.index s.events)
    ∧ ∃ s : File.State 2 Nat, (System.guarded .new (fun _ _ => true)
        (File.State.exec lineCodec)).Reachable s
      ∧ (s.procs 1).read = [⟨0, some 3⟩] ∧ s.records = [⟨0, some 4⟩] := by
  obtain ⟨s, hs, hret, hindex⟩ : ∃ s : Objects.State 1 Nat, (System.guarded .new (fun _ _ => true)
        Objects.State.exec).Reachable s ∧ .returned 0 (some 3) ∈ s.events
      ∧ s.index = [(⟨0, some 3⟩, 0), (⟨1, some 3⟩, 0)] :=
    exists_reachable askedAgain (by decide +kernel)
  refine ⟨⟨s, hs, hret, hindex, fun happ => ?_⟩, exists_reachable readTorn (by decide +kernel)⟩
  obtain ⟨pos, honce⟩ := happ.once 0 (some 3) hret
  rw [hindex] at honce
  have hlength : 2 = 1 := congrArg List.length honce
  cases hlength

end Yeto.SampleIndex
