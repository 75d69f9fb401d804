import FastSafeIO.HostTracer
import FastSafeIO.LoaderMain
import FastSafeIO.StatsRoundTrip
import FastSafeIO.VarianceSign

/- From the probes on the host to the file of host_qemu_loader.c: which calls its rows count, and for
   how long. -/
namespace HostReport
open TracingUtils HostTracer TextTables StatsReaders
open GuestLoader (quotient varianceUs)
open VarianceSign (NoWrap exactStats onCpu below)

def funcNameToString : FunctionName → String
  | .iommuMap => "iommu_map"
  | .iommuMapInternal => "__iommu_map"
  | .iommuIotlbSyncMap => "intel_iommu_iotlb_sync_map"
  | .iommuUnmap => "iommu_unmap"
  | .iommuUnmapInternal => "__iommu_unmap"
  | .iommuTlbSync => "intel_iommu_tlb_sync"
  | .qiSubmitSync => "qi_submit_sync"
  | .iommufdFopsIoctl => "iommufd_fops_ioctl"
  | _ => "UnknownFunction"

def fnName (fn : Nat) : List Char := (funcNameToString (FunctionName.ofNat fn)).toList

/-- The cookies of probes_to_attach, each of them given to a kprobe and a kretprobe. -/
def probesToAttach : List Nat := [FunctionName.qiSubmitSync.value, FunctionName.iommufdFopsIoctl.value]

example : LoaderMain.hostQemuLoader.probesToAttach.map (·.cookie.value) =
    probesToAttach.flatMap fun fn => [fn, fn] := rfl

section
variable (numCpus : Nat) (stats : Nat → Nat → LatencyStats)

/-- The sums of the loop over the CPUs. -/
def totals (fn : Nat) : LatencyStats :=
  (List.range numCpus).foldl (fun t cpu =>
    let s := stats cpu fn
    { count := add64 t.count s.count
      totalDurationNs := add64 t.totalDurationNs s.totalDurationNs
      sumSqDurationUs := add64 t.sumSqDurationUs s.sumSqDurationUs }) noStats

def header : List (List Char) :=
  ["function".toList, "count".toList, "total_duration_ns".toList, "mean_ns".toList,
    "variance_us".toList]

def row (fn : Nat) (t : LatencyStats) : List (List Char) :=
  [fnName fn, printNat t.count, printNat t.totalDurationNs,
    printRounded 2 (quotient t.totalDurationNs t.count), printRounded 2 (varianceUs t)]

/-- A function without calls has no row. -/
def rows : List (List (List Char)) :=
  ((List.range FUNCTION_NAME_MAX).filter fun fn => (totals numCpus stats fn).count ≠ 0).map fun fn =>
    row fn (totals numCpus stats fn)

/-- The file where every calloc and every lookup in a map succeeds. -/
def dumpAggregateToFile : List Char :=
  if numCpus = 0 then [] else writeLines (csvLine header :: (rows numCpus stats).map csvLine)

end

/-- Function, count and total duration in a row of the file. -/
def readRow (fields : List (List Char × List Char)) : Option (List Char × Nat × Nat) := do
  let function ← fields.lookup "function".toList
  let count ← fields.lookup "count".toList
  let total ← fields.lookup "total_duration_ns".toList
  some (function, ← readNat count, ← readNat total)

section
variable (pidTgid : Nat → Nat)

def keyOf (e : Firing) : EntryKey := ⟨pidTgid e.task, e.cookie⟩

/-- Since when a thread is inside a function: from the last event of the two, if it is an entry. -/
def openSince (k : EntryKey) (events : List Firing) : Option Nat :=
  match (events.filter (keyOf pidTgid · = k)).getLast? with
  | some e => if e.probe = .exit then none else some e.now
  | none => none

/-- The threads with the functions that they are inside. -/
def openKeys (events : List Firing) : List EntryKey :=
  (events.map (keyOf pidTgid)).dedup.filter fun k => (openSince pidTgid k events).isSome

/-- The exits of a function right after an entry of the same thread: CPU and time. -/
def callsOf (fn : Nat) (before : List Firing) : List Firing → List (Nat × Nat)
  | [] => []
  | e :: rest =>
    (if e.probe = .exit ∧ e.cookie = fn then
      (openSince pidTgid (keyOf pidTgid e) before).map fun start => (e.cpu, sub64 e.now start)
    else none).toList ++ callsOf fn (before ++ [e]) rest

end

section
variable {pidTgid : Nat → Nat} {before : List Firing} {e : Firing} {m : Maps} {cpu fn : Nat}

theorem open_since_snoc (k : EntryKey) : openSince pidTgid k (before ++ [e]) =
    if k = keyOf pidTgid e then (if e.probe = .exit then none else some e.now)
    else openSince pidTgid k before := by
  unfold openSince
  rw [List.filter_append]
  by_cases mine : k = keyOf pidTgid e
  · simp [mine]
  · simp [mine, Ne.symm mine]

theorem open_key {k : EntryKey} {events : List Firing} (inside : (openSince pidTgid k events).isSome) :
    k ∈ openKeys pidTgid events := by
  unfold openKeys
  rw [List.mem_filter]
  refine ⟨?_, inside⟩
  rw [List.mem_dedup, List.mem_map]
  unfold openSince at inside
  cases last : (events.filter (keyOf pidTgid · = k)).getLast? with
  | none =>
    rw [last] at inside
    cases inside
  | some e =>
    have member := List.mem_of_mem_getLast? last
    rw [List.mem_filter] at member
    exact ⟨e, member.1, of_decide_eq_true member.2⟩

/-- The hash map holds the calls that are under way. -/
def Agrees (pidTgid : Nat → Nat) (m : Maps) (before : List Firing) : Prop :=
  ∀ k, m.entryTraces.lookup k = openSince pidTgid k before

theorem entry_takes (agrees : Agrees pidTgid m before) (entry : e.probe ≠ .exit)
    (room : (openKeys pidTgid (before ++ [e])).length ≤ maxEntries) :
    m.entryTraces.Takes (keyOf pidTgid e) := by
  by_contra refused
  obtain ⟨absent, full⟩ := not_or.mp refused
  have fresh : keyOf pidTgid e ∉ m.entryTraces.entries.keys := fun held =>
    absent (AList.mem_keys.mpr held)
  have distinct : (keyOf pidTgid e :: m.entryTraces.entries.keys).Nodup :=
    List.nodup_cons.mpr ⟨fresh, m.entryTraces.entries.nodupKeys⟩
  have inside : keyOf pidTgid e :: m.entryTraces.entries.keys ⊆ openKeys pidTgid (before ++ [e]) := by
    intro k member
    apply open_key
    rw [open_since_snoc]
    by_cases mine : k = keyOf pidTgid e
    · simp [mine, entry]
    · rw [if_neg mine, ← agrees k]
      have held := (List.mem_cons.mp member).resolve_left mine
      exact AList.lookup_isSome.mpr (AList.mem_keys.mpr held)
  have most := (distinct.subperm inside).length_le
  rw [List.length_cons] at most
  omega

theorem fire_agrees (agrees : Agrees pidTgid m before)
    (room : (openKeys pidTgid (before ++ [e])).length ≤ maxEntries) :
    Agrees pidTgid (fire pidTgid m e) (before ++ [e]) := by
  intro k
  rw [open_since_snoc]
  unfold fire
  cases probe : e.probe with
  | entry created =>
    have takes := entry_takes agrees (by rw [probe]; exact Probe.noConfusion) room
    change (m.entryTraces.update (keyOf pidTgid e) e.now).lookup k = _
    rw [BoundedMap.lookup_update takes, agrees k]
    rfl
  | exit =>
    dsimp only [_bpfUtilsTraceFuncExit]
    rw [if_pos rfl]
    cases found : m.entryTraces.lookup ⟨pidTgid e.task, e.cookie⟩ with
    | none =>
      by_cases mine : k = keyOf pidTgid e
      · rw [if_pos mine, mine]
        exact found
      · rw [if_neg mine]
        exact agrees k
    | some start =>
      dsimp only
      split
      all_goals
        rw [BoundedMap.lookup_delete, agrees k]
        rfl

theorem fire_stats (agrees : Agrees pidTgid m before) (latency : e.cookie < TRACE_FUNCS_END) :
    (fire pidTgid m e).funcLatencyStats cpu fn =
      (onCpu cpu (callsOf pidTgid fn before [e])).foldl LatencyStats.add (m.funcLatencyStats cpu fn) := by
  simp only [callsOf, List.append_nil]
  have same := agrees (keyOf pidTgid e)
  cases probe : e.probe with
  | entry created =>
    unfold fire
    rw [probe]
    simp [_bpfUtilsTraceFuncEntry, onCpu]
  | exit =>
    cases found : openSince pidTgid (keyOf pidTgid e) before with
    | none =>
      rw [found] at same
      have idle : fire pidTgid m e = m := by
        unfold fire _bpfUtilsTraceFuncExit
        rw [probe]
        dsimp only
        change m.entryTraces.lookup ⟨pidTgid e.task, e.cookie⟩ = none at same
        rw [same]
      rw [idle]
      simp [onCpu]
    | some start =>
      rw [found] at same
      rw [exit_fire probe latency same]
      dsimp only
      by_cases mine : e.cookie = fn
      · subst mine
        by_cases here : e.cpu = cpu
        · subst here
          simp [onCpu]
        · rw [put_other fun both => here both.1.symm]
          simp [onCpu, here]
      · rw [put_other fun both => mine both.2.symm]
        simp [onCpu, mine]

theorem calls_cons (e : Firing) (rest : List Firing) : callsOf pidTgid fn before (e :: rest) =
    callsOf pidTgid fn before [e] ++ callsOf pidTgid fn (before ++ [e]) rest := by
  simp [callsOf]

theorem run_stats {events : List Firing} (agrees : Agrees pidTgid m before)
    (latency : ∀ e ∈ events, e.cookie < TRACE_FUNCS_END)
    (room : ∀ n, (openKeys pidTgid (before ++ events.take n)).length ≤ maxEntries) :
    (fireAll pidTgid m events).funcLatencyStats cpu fn =
      (onCpu cpu (callsOf pidTgid fn before events)).foldl LatencyStats.add
        (m.funcLatencyStats cpu fn) := by
  induction events generalizing m before with
  | nil => rfl
  | cons e rest ih =>
    have here := room 1
    rw [List.take_succ_cons, List.take_zero] at here
    have later : ∀ n, (openKeys pidTgid (before ++ [e] ++ rest.take n)).length ≤ maxEntries := by
      intro n
      have after := room (n + 1)
      rw [List.take_succ_cons] at after
      rw [List.append_assoc]
      exact after
    have first : fireAll pidTgid m (e :: rest) = fireAll pidTgid (fire pidTgid m e) rest := rfl
    rw [first, ih (fire_agrees agrees here) (fun f member => latency f (List.mem_cons_of_mem e member))
      later, fire_stats agrees (latency e List.mem_cons_self), calls_cons e rest]
    simp only [onCpu, List.filter_append, List.map_append, List.foldl_append]

end

section
variable {numCpus fn : Nat} {stats : Nat → Nat → LatencyStats} {l : List (Nat × Nat)}

theorem totals_exact (cell : ∀ cpu, stats cpu fn = exactStats (onCpu cpu l))
    (unwrapped : NoWrap (l.map Prod.snd)) (k : Nat) : totals k stats fn = exactStats (below k l) := by
  induction k with
  | zero =>
    have none : below 0 l = [] := by simp [below]
    rw [none]
    rfl
  | succ k ih =>
    unfold totals at ih ⊢
    rw [List.range_succ, List.foldl_append, ih]
    simp only [List.foldl_cons, List.foldl_nil, cell]
    exact VarianceSign.next_cpu_exact unwrapped k

theorem names_plain : ∀ fn ∈ List.range FUNCTION_NAME_MAX, (fnName fn) ≠ [] ∧
    (fnName fn).all isNameChar = true := by
  decide +kernel

theorem header_plain : ∀ f ∈ header, f ≠ [] ∧ f.all isNameChar = true := by decide

theorem name_plain {f : List Char} (name : f ≠ [] ∧ f.all isNameChar = true) : Plain f :=
  ⟨name.1, fun c member => (name_char (List.all_eq_true.mp name.2 c member)).2⟩

theorem table_plain (numCpus : Nat) (stats : Nat → Nat → LatencyStats) :
    PlainTable header (rows numCpus stats) := by
  constructor
  · exact List.cons_ne_nil _ _
  · exact fun f member => name_plain (header_plain f member)
  · intro fields member
    obtain ⟨fn, _, rfl⟩ := List.mem_map.mp member
    rfl
  · intro fields member f field
    obtain ⟨fn, known, rfl⟩ := List.mem_map.mp member
    simp only [row, List.mem_cons, List.not_mem_nil, or_false] at field
    rcases field with rfl | rfl | rfl | rfl | rfl
    · exact name_plain (names_plain fn (List.mem_of_mem_filter known))
    · exact (print_nat_plain _).1
    · exact (print_nat_plain _).1
    · exact (print_rounded_plain _ _).1
    · exact (print_rounded_plain _ _).1

theorem read_row (fn : Nat) (t : LatencyStats) :
    readRow (header.zip (row fn t)) = some (fnName fn, t.count, t.totalDurationNs) := by
  have function : (header.zip (row fn t)).lookup "function".toList = some (fnName fn) := rfl
  have count : (header.zip (row fn t)).lookup "count".toList = some (printNat t.count) := rfl
  have total : (header.zip (row fn t)).lookup "total_duration_ns".toList =
      some (printNat t.totalDurationNs) := rfl
  unfold readRow
  rw [function, count, total]
  simp [read_print_nat]

theorem called_functions (called : Nat → Prop) [DecidablePred called]
    (attached : ∀ fn, called fn → fn ∈ probesToAttach) :
    (List.range FUNCTION_NAME_MAX).filter (fun fn => called fn) =
      probesToAttach.filter fun fn => called fn := by
  have known : (List.range FUNCTION_NAME_MAX).filter (fun fn => fn ∈ probesToAttach) =
      probesToAttach := by decide
  calc (List.range FUNCTION_NAME_MAX).filter (fun fn => called fn)
      = ((List.range FUNCTION_NAME_MAX).filter fun fn => fn ∈ probesToAttach).filter
          fun fn => called fn := by
        rw [List.filter_filter]
        apply List.filter_congr
        intro fn _
        by_cases call : called fn
        · simp [call, attached fn call]
        · simp [call]
    _ = probesToAttach.filter fun fn => called fn := by rw [known]

theorem calls_attached {pidTgid : Nat → Nat} {events : List Firing} (before : List Firing)
    (attached : ∀ e ∈ events, e.cookie ∈ probesToAttach ∧ e.cpu < numCpus) :
    ∀ p ∈ callsOf pidTgid fn before events, fn ∈ probesToAttach ∧ p.1 < numCpus := by
  induction events generalizing before with
  | nil =>
    intro p member
    exact absurd member List.not_mem_nil
  | cons e rest ih =>
    intro p member
    rw [callsOf, List.mem_append, Option.mem_toList] at member
    rcases member with here | later
    · split at here
      · rename_i exit
        obtain ⟨start, _, rfl⟩ := Option.map_eq_some_iff.mp here
        rw [← exit.2]
        exact attached e List.mem_cons_self
      · cases here
    · exact ih (before ++ [e]) (fun f inside => attached f (List.mem_cons_of_mem e inside)) p later

end

theorem attached_latency : ∀ fn ∈ probesToAttach, fn < TRACE_FUNCS_END := by decide

section
variable {pidTgid : Nat → Nat} {numCpus : Nat} {events : List Firing}
  (attached : ∀ e ∈ events, e.cookie ∈ probesToAttach ∧ e.cpu < numCpus)
  (room : ∀ n, (openKeys pidTgid (events.take n)).length ≤ maxEntries)
  (unwrapped : ∀ fn, NoWrap ((callsOf pidTgid fn [] events).map Prod.snd))
include attached room unwrapped

theorem run_totals (fn : Nat) : totals numCpus (fireAll pidTgid .empty events).funcLatencyStats fn =
    exactStats ((callsOf pidTgid fn [] events).map Prod.snd) := by
  have start : Agrees pidTgid .empty [] := fun k => rfl
  have cell : ∀ cpu, (fireAll pidTgid .empty events).funcLatencyStats cpu fn =
      exactStats (onCpu cpu (callsOf pidTgid fn [] events)) := by
    intro cpu
    rw [run_stats start (fun e member => attached_latency _ (attached e member).1) room]
    exact VarianceSign.add_all_exact
      (VarianceSign.no_wrap_sublist (List.filter_sublist.map Prod.snd) (unwrapped fn))
  rw [totals_exact cell (unwrapped fn), VarianceSign.below_all]
  exact fun p member => (calls_attached [] attached p member).2

theorem run_functions : (List.range FUNCTION_NAME_MAX).filter
      (fun fn => (totals numCpus (fireAll pidTgid .empty events).funcLatencyStats fn).count ≠ 0) =
    probesToAttach.filter fun fn => callsOf pidTgid fn [] events ≠ [] := by
  rw [← called_functions fun fn => callsOf pidTgid fn [] events ≠ []]
  · apply List.filter_congr
    intro fn _
    rw [run_totals attached room unwrapped fn, decide_eq_decide]
    change (List.map Prod.snd _).length ≠ 0 ↔ _
    rw [List.length_map, Ne, List.length_eq_zero_iff]
  · intro fn calls
    obtain ⟨p, member⟩ := List.exists_mem_of_ne_nil _ calls
    exact (calls_attached [] attached p member).1

end

/-- After any events of the attached probes, as long as no more than 16384 calls are under way at a
time and no counter wraps: the file has one row for each function with a call, and it tells how many
exits of the function came right after an entry of the same thread, and how much time lay between. -/
theorem host_report_tells_calls {pidTgid : Nat → Nat} {numCpus : Nat} {events : List Firing}
    (attached : ∀ e ∈ events, e.cookie ∈ probesToAttach ∧ e.cpu < numCpus)
    (room : ∀ n, (openKeys pidTgid (events.take n)).length ≤ maxEntries)
    (unwrapped : ∀ fn, NoWrap ((callsOf pidTgid fn [] events).map Prod.snd)) :
    (dictReader (dumpAggregateToFile numCpus (fireAll pidTgid .empty events).funcLatencyStats)).map
        readRow =
      (probesToAttach.filter fun fn => callsOf pidTgid fn [] events ≠ []).map fun fn =>
        some (fnName fn, (callsOf pidTgid fn [] events).length,
          ((callsOf pidTgid fn [] events).map Prod.snd).sum) := by
  unfold dumpAggregateToFile
  by_cases none : numCpus = 0
  · have silent : events = [] := by
      cases events with
      | nil => rfl
      | cons e rest =>
        have cpu := (attached e List.mem_cons_self).2
        omega
    rw [if_pos none, silent]
    rfl
  · rw [if_neg none, dict_reader_written (table_plain numCpus _), List.map_map, rows,
      run_functions attached room unwrapped, List.map_map]
    apply List.map_congr_left
    intro fn _
    change readRow (header.zip (row fn _)) = _
    rw [read_row, run_totals attached room unwrapped fn]
    change some (fnName fn, (List.map Prod.snd _).length, _) = _
    rw [List.length_map]
    rfl

theorem open_keys_le (pidTgid : Nat → Nat) (events : List Firing) :
    (openKeys pidTgid events).length ≤ events.length := by
  have kept := List.length_filter_le (fun k => (openSince pidTgid k events).isSome)
    (events.map (keyOf pidTgid)).dedup
  have distinct := (List.dedup_sublist (events.map (keyOf pidTgid))).length_le
  rw [List.length_map] at distinct
  exact kept.trans distinct

/-- Two threads, each with one call, and an exit that no entry came before. -/
def twoThreads : List Firing :=
  [⟨.entry true, 1, 0, FunctionName.qiSubmitSync.value, 100⟩,
    ⟨.entry true, 2, 1, FunctionName.iommufdFopsIoctl.value, 150⟩,
    ⟨.exit, 1, 0, FunctionName.qiSubmitSync.value, 200⟩,
    ⟨.exit, 2, 1, FunctionName.iommufdFopsIoctl.value, 400⟩,
    ⟨.exit, 2, 1, FunctionName.iommufdFopsIoctl.value, 500⟩]

theorem two_threads_told :
    (dictReader (dumpAggregateToFile 2 (fireAll id .empty twoThreads).funcLatencyStats)).map readRow =
      [some ("qi_submit_sync".toList, 1, 100), some ("iommufd_fops_ioctl".toList, 1, 250)] := by
  have attached : ∀ e ∈ twoThreads, e.cookie ∈ probesToAttach ∧ e.cpu < 2 := by decide
  have room : ∀ n, (openKeys id (twoThreads.take n)).length ≤ maxEntries := by
    intro n
    have few := (open_keys_le id (twoThreads.take n)).trans (List.length_take_le' ..)
    exact few.trans (by decide)
  have unwrapped : ∀ fn, NoWrap ((callsOf id fn [] twoThreads).map Prod.snd) := by
    intro fn
    by_cases known : fn ∈ probesToAttach
    · rcases List.mem_pair.mp known with rfl | rfl
      · exact ⟨by decide, by decide, by decide⟩
      · exact ⟨by decide, by decide, by decide⟩
    · have none : callsOf id fn [] twoThreads = [] := by
        apply List.eq_nil_iff_forall_not_mem.mpr
        intro p member
        exact known (calls_attached [] attached p member).1
      rw [none]
      exact ⟨by decide, by decide, by decide⟩
  rw [host_report_tells_calls attached room unwrapped]
  decide

end HostReport
