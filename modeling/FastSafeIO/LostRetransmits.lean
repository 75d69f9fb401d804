import FastSafeIO.RetxSnapshots

/-! The counter of lost retransmits, which netstat leaves out while it is zero. -/
namespace LostRetransmits
open NearestFloat TextTables UnicodeText RetxReport RetxSnapshots

/-- A dump with the three segment counters, and a line for the lost retransmits if there are
    any. -/
structure TcpSnapshot (u : Unicode) where
  entries : List Entry
  lines : List (List Char)
  spelled : Spelled u entries lines
  fits : ∀ e ∈ entries, e.Fits
  value : Counter → Nat
  lost : Nat
  once : ∀ c, Counter.isSegments c = true → valuesOf c entries = [value c]
  lostLine : valuesOf .lossRetx entries = if lost = 0 then [] else [lost]

section
variable {u : Unicode} (b a : TcpSnapshot u)

def sentBetween : ℚ := (((a.value .sent : Int) - b.value .sent : Int) : ℚ)

def lostBetween : ℚ := (((a.lost : Int) - b.lost : Int) : ℚ)

/-- After minus before, and its percentage of what was sent in double precision. -/
structure LossReported (lines : List (String × Value)) : Prop where
  difference : ReportsNumber lines "Loss_retx: " (lostBetween b a)
  percent : ReportsNumber lines "Loss_retx_percent:"
    (if 0 < sentBetween b a then
      toDouble (toDouble (toDouble (lostBetween b a) / toDouble (sentBetween b a)) * 100)
    else 0)

end

variable {u : Unicode} {s : State} {b a : TcpSnapshot u}

theorem loss_report (asserted : s.asserted) (fits : ∀ c, PairFits (s.counter c)) (timeInt : Int) :
    reported (reportLines s timeInt) "Loss_retx: " =
        some (.float (toDouble (s.counter .lossRetx).difference)) ∧
      reported (reportLines s timeInt) "Loss_retx_percent:" = some (percentOf
        (toDouble (s.counter .lossRetx).difference) (toDouble (s.counter .sent).difference)) := by
  constructor
  · apply reported_segment asserted fits
    simp [reported, segmentDoubles]
  · apply reported_segment asserted fits
    simp [reported, segmentDoubles]

theorem segments_read (b a : TcpSnapshot u) (c : Counter) (segments : Counter.isSegments c = true) :
    (endState b.entries a.entries).counter c = ⟨b.value c, a.value c⟩ :=
  counter_read (b.once c segments) (a.once c segments)

/-- A line that is left out of both dumps or of none. -/
theorem loss_difference (together : b.lost ≠ 0 ∨ a.lost = 0) (grown : b.lost ≤ a.lost) :
    ((endState b.entries a.entries).counter .lossRetx).difference = (a.lost : Int) - b.lost := by
  by_cases none : b.lost = 0
  · have still : a.lost = 0 := together.resolve_left (not_not.mpr none)
    rw [end_counter, b.lostLine, a.lostLine, if_pos none, if_pos still, none, still]
    rfl
  · have positive : a.lost ≠ 0 := by omega
    have first : valuesOf .lossRetx b.entries = [b.lost] := b.lostLine.trans (if_neg none)
    have second : valuesOf .lossRetx a.entries = [a.lost] := a.lostLine.trans (if_neg positive)
    rw [counter_read first second]
    rfl

/-- A line that the second dump alone has is taken for the first one's. -/
theorem loss_misread (none : b.lost = 0) (some_lost : a.lost ≠ 0) :
    ((endState b.entries a.entries).counter .lossRetx).difference = -1 - (a.lost : Int) := by
  rw [end_counter, b.lostLine, a.lostLine, if_pos none, if_neg some_lost]
  rfl

theorem loss_together (together : b.lost ≠ 0 ∨ a.lost = 0) (grown : b.lost ≤ a.lost) (timeInt : Int) :
    ReportsNumber (printRetxRate u (b.lines ++ a.lines) timeInt) "Loss_retx: "
        (toDouble (lostBetween b a)) ∧
      ReportsNumber (printRetxRate u (b.lines ++ a.lines) timeInt) "Loss_retx_percent:"
        (if 0 < sentBetween b a then
          toDouble (toDouble (toDouble (lostBetween b a) / toDouble (sentBetween b a)) * 100)
        else 0) := by
  obtain ⟨difference, percent⟩ :=
    loss_report (asserted_of_read (segments_read b a)) (end_fits b.fits a.fits) timeInt
  have value := loss_difference together grown
  have sent := segments_read b a .sent rfl
  rw [log_read b.spelled a.spelled]
  constructor
  · refine ⟨_, difference, ?_⟩
    rw [value]
    rfl
  · refine ⟨_, percent, ?_⟩
    rw [value, sent]
    exact percent_number (lostBetween b a) (sentBetween b a)

theorem loss_apart (none : b.lost = 0) (some_lost : a.lost ≠ 0) (timeInt : Int) :
    ¬ ReportsNumber (printRetxRate u (b.lines ++ a.lines) timeInt) "Loss_retx: " (lostBetween b a) := by
  obtain ⟨difference, _⟩ :=
    loss_report (asserted_of_read (segments_read b a)) (end_fits b.fits a.fits) timeInt
  intro right
  rw [log_read b.spelled a.spelled] at right
  obtain ⟨v, found, number⟩ := right
  rw [difference, loss_misread none some_lost] at found
  cases found
  have negative : (((-1 - (a.lost : Int)) : Int) : ℚ) < 0 := by
    exact_mod_cast (by omega : -1 - (a.lost : Int) < 0)
  have positive : 0 < lostBetween b a := by
    unfold lostBetween
    exact_mod_cast (by omega : (0 : Int) < (a.lost : Int) - b.lost)
  have below : toDouble ((-1 - (a.lost : Int) : Int) : ℚ) < 0 := round_to_neg negative
  change toDouble _ = _ at number
  rw [number] at below
  exact lt_asymm below positive

theorem loss_reported_iff (b a : TcpSnapshot u) (grown : b.lost ≤ a.lost) (timeInt : Int) :
    LossReported b a (printRetxRate u (b.lines ++ a.lines) timeInt) ↔
      (b.lost ≠ 0 ∨ a.lost = 0) ∧ Representable 52 (lostBetween b a) := by
  constructor
  · intro right
    have together : b.lost ≠ 0 ∨ a.lost = 0 := by
      by_contra apart
      obtain ⟨none, some_lost⟩ := not_or.mp apart
      exact loss_apart (not_not.mp none) some_lost timeInt right.difference
    obtain ⟨v, found, number⟩ := right.difference
    obtain ⟨⟨w, again, double⟩, _⟩ := loss_together together grown timeInt
    rw [found] at again
    have same : toDouble (lostBetween b a) = lostBetween b a := by
      rw [← double, ← Option.some.inj again, number]
    refine ⟨together, ?_⟩
    rw [← same]
    exact round_to_representable 52 _
  · intro holds
    obtain ⟨together, double⟩ := holds
    obtain ⟨difference, percent⟩ := loss_together together grown timeInt
    have same : toDouble (lostBetween b a) = lostBetween b a := round_to_keeps double
    exact ⟨same ▸ difference, percent⟩

/-- Segments with the same number for each counter, and the line of the lost ones. -/
def tcpPairs (n : Nat) (word : String) (lost : List (Entry × List (List Char))) :
    List (Entry × List (List Char)) :=
  [(.counter .recv n, [word.toList ++ " segments received".toList]),
    (.counter .sent n, [word.toList ++ " segments sent out".toList]),
    (.counter .retx n, [word.toList ++ " segments retransmitted".toList])] ++ lost

def noneLost : TcpSnapshot ascii where
  entries := (tcpPairs 0 "0" []).map Prod.fst
  lines := (tcpPairs 0 "0" []).flatMap Prod.snd
  spelled := by
    apply spelled_pairs
    simp only [tcpPairs, List.append_nil, List.forall_mem_cons]
    exact ⟨.counter (by decide) (by decide), .counter (by decide) (by decide),
      .counter (by decide) (by decide), fun p member => absurd member List.not_mem_nil⟩
  fits := by
    simp [tcpPairs, Entry.Fits]
  value _ := 0
  lost := 0
  once c segments := by
    cases c <;> first | rfl | cases segments
  lostLine := rfl

/-- Five retransmits lost among nine segments. -/
def fiveLost : TcpSnapshot ascii where
  entries := (tcpPairs 9 "9" [(.counter .lossRetx 5, ["    TCPLostRetransmit: 5".toList])]).map Prod.fst
  lines := (tcpPairs 9 "9" [(.counter .lossRetx 5, ["    TCPLostRetransmit: 5".toList])]).flatMap
    Prod.snd
  spelled := by
    apply spelled_pairs
    simp only [tcpPairs, List.cons_append, List.nil_append, List.forall_mem_cons]
    exact ⟨.counter (by decide) (by decide), .counter (by decide) (by decide),
      .counter (by decide) (by decide), .counter (by decide) (by decide),
      fun p member => absurd member List.not_mem_nil⟩
  fits := by
    simp [tcpPairs, Entry.Fits]
  value _ := 9
  lost := 5
  once c segments := by
    cases c <;> first | rfl | cases segments
  lostLine := rfl

theorem first_loss_misreported :
    reported (printRetxRate ascii (noneLost.lines ++ fiveLost.lines) 30) "Loss_retx: " =
        some (.float (-6)) ∧
      ¬ LossReported noneLost fiveLost (printRetxRate ascii (noneLost.lines ++ fiveLost.lines) 30) := by
  have value : reported (printRetxRate ascii (noneLost.lines ++ fiveLost.lines) 30) "Loss_retx: " =
      some (.float (-6)) := by decide +kernel
  have five : lostBetween noneLost fiveLost = ((5 : Int) : ℚ) := rfl
  constructor
  · exact value
  · intro right
    obtain ⟨v, printed, number⟩ := right.difference
    rw [value] at printed
    cases printed
    rw [five] at number
    norm_num [Value.number] at number

theorem known_loss_reported :
    LossReported fiveLost fiveLost (printRetxRate ascii (fiveLost.lines ++ fiveLost.lines) 30) :=
  (loss_reported_iff fiveLost fiveLost (Nat.le_refl 5) 30).mpr
    ⟨Or.inl (by decide), representable_int (by decide)⟩

end LostRetransmits
