import FastSafeIO.OccupancySampler
import FastSafeIO.RingLog

/-! The log that collect_iio_occ.c writes its samples to. -/
namespace OccupancyLog
open OccupancySampler RingLog

def LOG_SIZE : Nat := 100000

def CORE : Nat := 28

structure LogEntry where
  lTsc : Nat
  tdNs : Nat
  avgOcc : Nat
  sAvgOcc : Nat
  sAvgOccLongterm : Nat
  cpu : Nat
  deriving DecidableEq, Repr

structure OccLog where
  log : Nat → LogEntry
  logIndex : Nat

def mainInit : OccLog := ⟨fun _ => ⟨0, 0, 0, 0, 0, 65⟩, 0⟩

def logEntry (s : Statics) (c : Nat) : LogEntry where
  lTsc := s.curRdtsc
  tdNs := s.latestTimeDeltaNs
  avgOcc := s.latestAvgOcc
  sAvgOcc := s.smoothedAvgOcc
  sAvgOccLongterm := s.smoothedAvgOccLongterm
  cpu := c

def updateLog (l : OccLog) (s : Statics) (c : Nat) : OccLog where
  log := Function.update l.log (l.logIndex % LOG_SIZE) (logEntry s c)
  logIndex := (l.logIndex + 1) % 2 ^ 32

/-- update_log called once for each state of the sampler. -/
def logAll (calls : List (Statics × Nat)) : OccLog :=
  calls.foldl (fun l call => updateLog l call.1 call.2) mainInit

def samplesOf (calls : List (Statics × Nat)) : List LogEntry :=
  calls.map fun call => logEntry call.1 call.2

/-- The last samples, each in the slot after the one before it. -/
def KeepsSamples (calls : List (Statics × Nat)) : Prop :=
  HoldsLast LOG_SIZE mainInit.log (logAll calls).log (samplesOf calls)

/-- The slot of the call that comes after k others. -/
def slotOf (k : Nat) : Nat := k % 2 ^ 32 % LOG_SIZE

variable {n k : Nat} {calls : List (Statics × Nat)}

theorem log_all_eq (calls : List (Statics × Nat)) :
    (logAll calls).log = (pushAll slotOf mainInit.log (samplesOf calls)).slots ∧
    (logAll calls).logIndex = calls.length % 2 ^ 32 := by
  induction calls using List.reverseRecOn with
  | nil => exact ⟨rfl, rfl⟩
  | append_singleton calls call ih =>
    obtain ⟨log, index⟩ := ih
    have last : logAll (calls ++ [call]) = updateLog (logAll calls) call.1 call.2 := by
      simp [logAll]
    have samples : samplesOf (calls ++ [call]) = samplesOf calls ++ [logEntry call.1 call.2] := by
      simp [samplesOf]
    have length : (samplesOf calls).length = calls.length := List.length_map _
    constructor
    · rw [last, samples, push_all_slots, length, ← log]
      unfold updateLog
      rw [index]
      rfl
    · rw [last, List.length_append, List.length_singleton]
      unfold updateLog
      dsimp only
      rw [index, Nat.mod_add_mod]

/-- The last calls lie between two turns of the counter. -/
def SameTurn (n : Nat) : Prop := n < 2 ^ 32 ∨ n % 2 ^ 32 = 0 ∨ LOG_SIZE ≤ n % 2 ^ 32

theorem slots_in_turn (turn : SameTurn n) :
    ∃ first, ∀ k < n, n ≤ k + LOG_SIZE → slotOf k = (first + k) % LOG_SIZE := by
  unfold SameTurn LOG_SIZE at turn
  unfold slotOf LOG_SIZE
  -- the turn that the last call falls into
  refine ⟨(n - 1) / 2 ^ 32 * 2 ^ 32 * 99999, ?_⟩
  intro k small recent
  have same : k / 2 ^ 32 = (n - 1) / 2 ^ 32 := by omega
  have whole := Nat.div_add_mod k (2 ^ 32)
  have split : (n - 1) / 2 ^ 32 * 2 ^ 32 * 99999 + k =
      k % 2 ^ 32 + 100000 * ((n - 1) / 2 ^ 32 * 2 ^ 32) := by omega
  rw [split, Nat.add_mul_mod_self_left]

theorem keeps_same_turn (turn : SameTurn calls.length) : KeepsSamples calls := by
  have length : (samplesOf calls).length = calls.length := List.length_map _
  obtain ⟨first, slots⟩ := slots_in_turn turn
  unfold KeepsSamples
  rw [(log_all_eq calls).1]
  rw [← length] at slots
  exact holds_last slots

/-- Time stamps that never go back, with one of their own on either side of the turn. -/
def stamp (n k : Nat) : Nat :=
  if k + 1 < n - n % 2 ^ 32 then 0
  else if k + 1 = n - n % 2 ^ 32 then 1
  else if k = n - n % 2 ^ 32 then 2 else 3

theorem stamp_mono (n : Nat) {i j : Nat} (le : i ≤ j) : stamp n i ≤ stamp n j := by
  unfold stamp
  split_ifs <;> omega

def marked (n : Nat) : List (Statics × Nat) :=
  (List.range n).map fun k => ({ start with curRdtsc := stamp n k }, CORE)

theorem marked_in_order (n : Nat) : (marked n).Pairwise fun a b => a.1.curRdtsc ≤ b.1.curRdtsc := by
  unfold marked
  rw [List.pairwise_map]
  exact List.pairwise_lt_range.imp fun before => stamp_mono n (Nat.le_of_lt before)

theorem marked_sample (small : k < n) :
    (samplesOf (marked n))[k]? = some ⟨stamp n k, 0, 0, 0, 0, CORE⟩ := by
  simp [samplesOf, marked, small, logEntry, start]

theorem marked_length (n : Nat) : (samplesOf (marked n)).length = n := by
  simp [samplesOf, marked]

theorem marked_slot {s : Nat} {x : LogEntry} (long : 2 ^ 32 ≤ n) (inside : s < LOG_SIZE)
    (entry : (samplesOf (marked n))[k]? = some x) (stamped : x.lTsc = 1 ∨ x.lTsc = 2)
    (found : (logAll (marked n)).log s = x) : slotOf k = s := by
  have small : k < n := by
    have bound := (List.getElem?_eq_some_iff.mp entry).1
    rw [marked_length] at bound
    exact bound
  rw [(log_all_eq _).1] at found
  refine slot_of_unique ?_ ?_ found
  · have here : s < n := by
      unfold LOG_SIZE at inside
      omega
    refine ⟨s, by rw [marked_length]; exact here, ?_⟩
    unfold slotOf
    unfold LOG_SIZE at inside ⊢
    omega
  · intro j other
    have within : j < n := by
      have bound := (List.getElem?_eq_some_iff.mp other).1
      rw [marked_length] at bound
      exact bound
    rw [marked_sample small] at entry
    rw [marked_sample within] at other
    have stamps := congrArg LogEntry.lTsc ((Option.some.inj other).trans (Option.some.inj entry).symm)
    have mine := congrArg LogEntry.lTsc (Option.some.inj entry)
    dsimp only [stamp] at stamps mine
    split_ifs at stamps mine <;> omega

theorem marked_lost (other : ¬ SameTurn n) : ¬ KeepsSamples (marked n) := by
  intro keeps
  unfold SameTurn at other
  obtain ⟨first, held, _⟩ := keeps
  rw [marked_length] at held
  have long : 2 ^ 32 ≤ n := by omega
  have positive : ∀ i, i % LOG_SIZE < LOG_SIZE := fun i => Nat.mod_lt i (by decide)
  -- the two samples around the turn
  have after : (samplesOf (marked n))[n - n % 2 ^ 32]? = some ⟨2, 0, 0, 0, 0, CORE⟩ := by
    rw [marked_sample (by omega), stamp, if_neg (by omega), if_neg (by omega), if_pos rfl]
  have before : (samplesOf (marked n))[n - n % 2 ^ 32 - 1]? = some ⟨1, 0, 0, 0, 0, CORE⟩ := by
    rw [marked_sample (by omega), stamp, if_neg (by omega), if_pos (by omega)]
  have recent : n ≤ n - n % 2 ^ 32 - 1 + LOG_SIZE := by
    unfold LOG_SIZE at other ⊢
    omega
  have second := marked_slot long (positive _) after (.inr rfl) (held _ _ after (by omega))
  have first_slot := marked_slot long (positive _) before (.inl rfl) (held _ _ before recent)
  have turned : (n - n % 2 ^ 32) % 2 ^ 32 = 0 := by omega
  have full : (n - n % 2 ^ 32 - 1) % 2 ^ 32 = 2 ^ 32 - 1 := by omega
  have next : first + (n - n % 2 ^ 32) = first + (n - n % 2 ^ 32 - 1) + 1 := by omega
  unfold slotOf LOG_SIZE at second first_slot
  rw [turned, next] at second
  rw [full] at first_slot
  omega

/-- For any number of calls: the newest samples are kept, whatever they are, exactly when
    the counter does not turn among them. -/
theorem log_keeps_iff (n : Nat) :
    (∀ calls, calls.length = n → KeepsSamples calls) ↔ SameTurn n := by
  constructor
  · intro keeps
    by_contra other
    have length : (marked n).length = n := by simp [marked]
    exact marked_lost other (keeps (marked n) length)
  · intro turn calls length
    rw [← length] at turn
    exact keeps_same_turn turn

/-- One call more than the counter counts. -/
theorem turned_log_loses : (marked (2 ^ 32 + 1)).length = 2 ^ 32 + 1 ∧
    ((marked (2 ^ 32 + 1)).Pairwise fun a b => a.1.curRdtsc ≤ b.1.curRdtsc) ∧
    ¬ KeepsSamples (marked (2 ^ 32 + 1)) := by
  refine ⟨?_, marked_in_order _, ?_⟩
  · simp [marked]
  · apply marked_lost
    unfold SameTurn LOG_SIZE
    omega

end OccupancyLog
