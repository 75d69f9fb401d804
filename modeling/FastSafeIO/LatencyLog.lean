import FastSafeIO.RingLog

/-! The latency log that netperf-logging.diff adds to netperf. -/
namespace LatencyLog
open RingLog

def MAX_LOG_SIZE : Nat := 1000000

structure Netlib where
  log : Nat → Int
  logCounter : Int

def netlibInit : Netlib := ⟨fun _ => 0, 0⟩

/-- The C remainder: it has the sign of the counter. -/
def Netlib.writeIndex (s : Netlib) : Int := s.logCounter.tmod MAX_LOG_SIZE

/-- The two lines added to HIST_add; none is a write outside the array. -/
def histAdd (s : Netlib) (timeDelta : Int) : Option Netlib :=
  if 0 ≤ s.writeIndex ∧ s.writeIndex < MAX_LOG_SIZE then
    some { log := Function.update s.log s.writeIndex.toNat timeDelta
           logCounter := (s.logCounter + 1).bmod (2 ^ 32) }
  else none

def histAddAll (latencies : List Int) : Option Netlib := latencies.foldlM histAdd netlibInit

/-- Every write in bounds, and the newest latencies in the buffer after them. -/
structure KeepsNewest (latencies : List Int) : Prop where
  inBounds : ∀ k < latencies.length, ∃ s, histAddAll (latencies.take k) = some s ∧
    0 ≤ s.writeIndex ∧ s.writeIndex < MAX_LOG_SIZE
  newest : ∃ s, histAddAll latencies = some s ∧
    HoldsLast MAX_LOG_SIZE (fun _ => 0) s.log latencies

variable {latencies : List Int}

theorem hist_add_all_append (latencies : List Int) (timeDelta : Int) :
    histAddAll (latencies ++ [timeDelta]) =
      (histAddAll latencies).bind fun s => histAdd s timeDelta := by
  unfold histAddAll
  rw [List.foldlM_append]
  simp

theorem index_in_turn {s : Netlib} {n : Nat} (counter : s.logCounter = n) :
    s.writeIndex = ((n % MAX_LOG_SIZE : Nat) : Int) := by
  unfold Netlib.writeIndex
  rw [counter]
  rfl

theorem index_bounds {s : Netlib} {n : Nat} (counter : s.logCounter = n) :
    0 ≤ s.writeIndex ∧ s.writeIndex < MAX_LOG_SIZE := by
  rw [index_in_turn counter]
  unfold MAX_LOG_SIZE
  omega

theorem hist_add_in_turn {s : Netlib} {n : Nat} (counter : s.logCounter = n) (timeDelta : Int) :
    histAdd s timeDelta = some ⟨Function.update s.log (n % MAX_LOG_SIZE) timeDelta,
      ((n + 1 : Nat) : Int).bmod (2 ^ 32)⟩ := by
  unfold histAdd
  rw [if_pos (index_bounds counter), index_in_turn counter, Int.toNat_natCast, counter,
    Int.natCast_add, Int.natCast_one]

/-- Up to 2 ^ 31 calls the slots are taken in turn. -/
theorem run_in_turn (short : latencies.length ≤ 2 ^ 31) : ∃ s, histAddAll latencies = some s ∧
    s.log = (pushAll (· % MAX_LOG_SIZE) (fun _ => 0) latencies).slots ∧
    s.logCounter = (latencies.length : Int).bmod (2 ^ 32) := by
  induction latencies using List.reverseRecOn with
  | nil => exact ⟨netlibInit, rfl, rfl, rfl⟩
  | append_singleton latencies timeDelta ih =>
    rw [List.length_append, List.length_singleton] at short
    obtain ⟨s, run, slots, counter⟩ := ih (by omega)
    have small : (latencies.length : Int).bmod (2 ^ 32) = latencies.length := by
      apply Int.bmod_eq_of_le <;> omega
    rw [small] at counter
    rw [hist_add_all_append, run, push_all_slots, ← slots, List.length_append,
      List.length_singleton]
    refine ⟨_, hist_add_in_turn counter timeDelta, ?_, ?_⟩
    · rfl
    · dsimp only

theorem wrapped_outside {s : Netlib} (wrapped : s.logCounter = -2 ^ 31) (timeDelta : Int) :
    s.writeIndex = -483648 ∧ histAdd s timeDelta = none := by
  have index : s.writeIndex = -483648 := by
    unfold Netlib.writeIndex
    rw [wrapped]
    decide
  constructor
  · exact index
  · unfold histAdd
    rw [index]
    rfl

theorem run_outside (long : 2 ^ 31 < latencies.length) : histAddAll latencies = none := by
  induction latencies using List.reverseRecOn with
  | nil => exact absurd long (Nat.not_lt_zero _)
  | append_singleton latencies timeDelta ih =>
    rw [List.length_append, List.length_singleton] at long
    rw [hist_add_all_append]
    by_cases before : 2 ^ 31 < latencies.length
    · rw [ih before]
      rfl
    · have last : latencies.length = 2 ^ 31 := by omega
      obtain ⟨s, run, _, counter⟩ := run_in_turn (Nat.le_of_eq last)
      have wrapped : s.logCounter = -2 ^ 31 := by
        rw [counter, last]
        decide
      rw [run]
      exact (wrapped_outside wrapped timeDelta).2

theorem keeps_newest_iff (latencies : List Int) :
    KeepsNewest latencies ↔ latencies.length ≤ 2 ^ 31 := by
  constructor
  · intro keeps
    by_contra long
    obtain ⟨s, run, _⟩ := keeps.newest
    rw [run_outside (Nat.not_le.mp long)] at run
    cases run
  · intro short
    constructor
    · intro k inside
      have taken : (latencies.take k).length = k := List.length_take_of_le (Nat.le_of_lt inside)
      have part : (latencies.take k).length ≤ 2 ^ 31 := by omega
      obtain ⟨s, run, _, counter⟩ := run_in_turn part
      have small : s.logCounter = k := by
        rw [counter, taken]
        apply Int.bmod_eq_of_le <;> omega
      exact ⟨s, run, index_bounds small⟩
    · obtain ⟨s, run, slots, _⟩ := run_in_turn short
      have turn : ∀ k < latencies.length, latencies.length ≤ k + MAX_LOG_SIZE →
          k % MAX_LOG_SIZE = (0 + k) % MAX_LOG_SIZE := by
        intro k _ _
        rw [Nat.zero_add]
      refine ⟨s, run, ?_⟩
      rw [slots]
      exact holds_last turn

/-- One call more than the signed counter can count. -/
theorem wrapped_counter_outside : ¬ KeepsNewest (List.replicate (2 ^ 31 + 1) 20) := by
  intro keeps
  obtain ⟨s, run, _⟩ := keeps.newest
  have length : (List.replicate (2 ^ 31 + 1) (20 : Int)).length = 2 ^ 31 + 1 :=
    List.length_replicate
  rw [run_outside (by omega)] at run
  cases run

end LatencyLog
