import FastSafeIO.LoaderMain

/- Every way through main of a loader gives back what it took, and tells by its exit code
   whether something went wrong. -/
namespace LoaderCleanup
open CallTree LocalViews LoaderMain

/- What the program holds and what it has seen so far. The clock is in microseconds. -/
structure Held where
  file : Bool
  skel : Bool
  links : List Nat
  tried : Nat
  lost : Nat
  broken : Bool
  dumped : Bool
  wanted : Bool
  duration : Int
  signalled : Bool
  clock : Nat

/- What an answer changes. The error of a failed attach is negative. Sleeping takes its time
   unless a signal comes, and then exiting is set. -/
def LoaderStep : (op : LoaderOp) → op.Ans → Held → Held → Prop
  | .argpParse, (err, args), v, b => b = { v with
      wanted := args.aggDataFilepath.isSome, duration := args.durationSec,
      broken := v.broken || err != 0 }
  | .fopen _, opened, v, b => b = { v with file := opened, broken := v.broken || !opened }
  | .openAndLoad, loaded, v, b => b = { v with skel := loaded, broken := v.broken || !loaded }
  | .findProgramByName _, found, v, b => b = { v with broken := v.broken || !found }
  | .attach _, .ok link, v, b =>
    link ∉ v.links ∧ b = { v with links := link :: v.links, tried := v.tried + 1 }
  | .attach _, .error e, v, b => e < 0 ∧ b = { v with tried := v.tried + 1, lost := v.lost + 1 }
  | .exiting, got, v, b => (v.signalled = true → got = true) ∧ b = v
  | .clockGettime, now, v, b =>
    ∃ later : Nat, v.clock ≤ later ∧ now = (later / 1000000 : Int) ∧ b = { v with clock := later }
  | .usleep us, _, v, b => ∃ later woken, v.clock ≤ later ∧ (woken = true ∨ v.clock + us ≤ later) ∧
      b = { v with clock := later, signalled := v.signalled || woken }
  | .dumpAggregateToFile, _, v, b => b = { v with dumped := true }
  | .fclose, _, v, b => b = { v with file := false }
  | .linkDestroy link, _, v, b => b = { v with links := v.links.erase link }
  | .destroy, _, v, b => b = { v with skel := false }
  | _, _, v, b => b = v

/- Nothing is opened twice, used before it is there or given back twice; the links go
   before the skeleton, and no more are taken than attached_links has room for. -/
def LoaderOk (maxProbes : Nat) : LoaderOp → Held → Prop
  | .fopen _, v => v.file = false
  | .openAndLoad, v => v.skel = false
  | .findProgramByName _, v => v.skel = true
  | .attach _, v => v.skel = true ∧ v.tried < maxProbes ∧ v.dumped = false
  | .dumpAggregateToFile, v => v.file = true ∧ v.skel = true ∧ v.dumped = false
  | .fclose, v => v.file = true
  | .linkDestroy link, v => v.skel = true ∧ link ∈ v.links
  | .destroy, v => v.skel = true ∧ v.links = []
  | _, _ => True

abbrev Does {α : Type} (l : Loader) (t : Load α) (post : α → Held → Prop) (v : Held) : Prop :=
  Meets LoaderStep (LoaderOk l.maxProbes) post t v

section
variable {l : Loader} {strerror : Int → String} {v : Held}

theorem progress_does (text : String) : Does l (progress l text) (fun _ b => b = v) v := by
  unfold progress
  split
  · refine ⟨trivial, fun now b step => ?_⟩
    obtain rfl : b = v := step
    exact ⟨trivial, fun _ c step => step⟩
  · exact ⟨trivial, fun _ b step => step⟩

/- The state of the loop over the probes. -/
structure Attaching (l : Loader) (file wanted : Bool) (duration : Int) (run : Attached) (v : Held) :
    Prop where
  opened : v.file = file
  wants : v.wanted = wanted
  lasts : v.duration = duration
  loaded : v.skel = true
  links : v.links.Perm (run.links.filterMap id)
  early : v.dumped = false
  err : run.err = 0 ↔ v.broken = false ∧ v.lost = 0
  stopped : run.stopped = true ↔ v.broken = true ∨ (l.stopAtFailure = true ∧ v.lost ≠ 0)

theorem attach_probes_does {file wanted : Bool} {duration : Int} {rest : List ProbeDef} {run : Attached}
    (attaching : Attaching l file wanted duration run v) (goes : run.stopped = false)
    (room : v.tried + rest.length ≤ l.maxProbes) :
    Does l (attachProbes l strerror rest run) (Attaching l file wanted duration) v := by
  induction rest generalizing run v with
  | nil => exact attaching
  | cons p rest ih =>
    have sound : v.broken = false := by
      by_contra broken
      have stopped := attaching.stopped.mpr (Or.inl (by simpa using broken))
      rw [goes] at stopped
      cases stopped
    simp only [List.length_cons] at room
    simp only [attachProbes, call, Tree.bind_eq, Tree.ask_bind, Tree.pure_eq]
    refine ⟨attaching.loaded, fun found b step => ?_⟩
    obtain rfl : b = { v with broken := v.broken || !found } := step
    cases found with
    | false =>
      simp only [Bool.false_eq_true, ↓reduceIte]
      refine ⟨trivial, fun _ c step => ?_⟩
      obtain rfl := step
      exact ⟨attaching.opened, attaching.wants, attaching.lasts, attaching.loaded, attaching.links,
        attaching.early, by simp [ENOENT], by simp⟩
    | true =>
      have same : { v with broken := v.broken || !true } = v := by simp
      rw [same]
      simp only [↓reduceIte]
      refine ⟨⟨attaching.loaded, by omega, attaching.early⟩, fun got b step => ?_⟩
      cases got with
      | ok link =>
        obtain ⟨_, rfl⟩ := step
        refine ih ⟨attaching.opened, attaching.wants, attaching.lasts, attaching.loaded, ?_,
          attaching.early, attaching.err, attaching.stopped⟩ goes (by simp only; omega)
        simp only [List.filterMap_append, List.filterMap_cons, List.filterMap_nil, id]
        exact (attaching.links.cons link).trans (List.perm_append_singleton link _).symm
      | error e =>
        obtain ⟨negative, rfl⟩ := step
        dsimp only
        simp only [attachFailed, call, Tree.ask_bind]
        refine ⟨trivial, fun _ c step => ?_⟩
        obtain rfl := step
        have wrong : e ≠ 0 := by omega
        by_cases stops : l.stopAtFailure = true
        · rw [if_pos stops]
          exact ⟨attaching.opened, attaching.wants, attaching.lasts, attaching.loaded, attaching.links,
            attaching.early, by simp [wrong], by simp [stops]⟩
        · rw [if_neg stops]
          refine ih ⟨attaching.opened, attaching.wants, attaching.lasts, attaching.loaded, ?_,
            attaching.early, by simp [wrong], by simp [goes, sound, stops]⟩ goes (by simp only; omega)
          simpa using attaching.links

/- Each round of the loop that waits takes half a second, or is the last. -/
theorem wait_loop_does (l : Loader) (duration : Int) (rounds : Nat) {s n : Nat}
    (late : v.signalled = true ∨ s + 500000 * n ≤ v.clock)
    (spent : duration ≤ 0 ∨ (n : Int) ≤ 2 * duration) :
    Does l (waitLoop duration (s / 1000000 : Int) rounds) (fun ended b =>
      (∃ signalled clock, b = { v with signalled := signalled, clock := clock }) ∧
        (ended = false → duration ≤ 0 ∨ ((n + rounds : Nat) : Int) ≤ 2 * duration)) v := by
  induction rounds generalizing v n with
  | zero => exact ⟨⟨v.signalled, v.clock, rfl⟩, fun _ => spent⟩
  | succ rounds ih =>
    have slept : ∀ w : Held, (∃ clock, w = { v with clock := clock }) →
        w.signalled = true ∨ s + 500000 * n ≤ w.clock →
        (duration ≤ 0 ∨ ((n + 1 : Nat) : Int) ≤ 2 * duration) →
        Does l ((call (.usleep 500000)).bind fun _ => waitLoop duration (s / 1000000 : Int) rounds)
          (fun ended b => (∃ signalled clock, b = { v with signalled := signalled, clock := clock }) ∧
            (ended = false → duration ≤ 0 ∨ ((n + (rounds + 1) : Nat) : Int) ≤ 2 * duration)) w := by
      rintro _ ⟨clock, rfl⟩ before still
      refine ⟨trivial, ?_⟩
      rintro _ _ ⟨later, woken, forward, took, rfl⟩
      dsimp only at before forward took
      have next : (v.signalled || woken) = true ∨ s + 500000 * (n + 1) ≤ later := by
        rcases took with woken | full
        · exact Or.inl (by simp [woken])
        · rcases before with signalled | before
          · exact Or.inl (by simp [signalled])
          · rw [Nat.mul_succ, ← Nat.add_assoc]
            exact Or.inr ((Nat.add_le_add_right before 500000).trans full)
      have again := ih (n := n + 1) (v := { v with clock := later, signalled := v.signalled || woken })
        next still
      refine again.mono ?_
      intro ended b met
      obtain ⟨⟨signalled, clock, rfl⟩, bound⟩ := met
      refine ⟨⟨signalled, clock, rfl⟩, fun unfinished => ?_⟩
      rw [show n + (rounds + 1) = n + 1 + rounds by omega]
      exact bound unfinished
    simp only [waitLoop, call, Tree.bind_eq, Tree.ask_bind, Tree.pure_eq]
    refine ⟨trivial, fun exiting b step => ?_⟩
    obtain ⟨heard, same⟩ := step
    subst b
    dsimp only
    cases exiting with
    | true => exact ⟨⟨v.signalled, v.clock, rfl⟩, fun impossible => absurd impossible (by simp)⟩
    | false =>
      have quiet : v.signalled = false := by simpa using heard
      simp only [Bool.false_eq_true, ↓reduceIte]
      by_cases timed : duration > 0
      · rw [if_pos timed]
        refine ⟨trivial, ?_⟩
        rintro now _ ⟨later, forward, rfl, rfl⟩
        dsimp only
        by_cases done : (later / 1000000 : Int) - s / 1000000 ≥ duration
        · rw [if_pos done]
          exact ⟨⟨v.signalled, later, rfl⟩, fun impossible => absurd impossible (by simp)⟩
        · rw [if_neg done]
          rcases late with signalled | late
          · simp [quiet] at signalled
          · exact slept _ ⟨later, rfl⟩ (Or.inr (by simp only; omega)) (Or.inr (by omega))
      · rw [if_neg timed]
        exact slept _ ⟨v.clock, rfl⟩ late (Or.inl (by omega))

theorem destroy_links_does {links : List (Option Nat)} (loaded : v.skel = true)
    (all : v.links.Perm (links.filterMap id)) :
    Does l (destroyLinks links) (fun _ b => b = { v with links := [] }) v := by
  induction links generalizing v with
  | nil =>
    have empty : v.links = [] := List.perm_nil.mp all
    exact (show v = { v with links := [] } by rw [← empty])
  | cons link rest ih =>
    cases link with
    | none => exact ih loaded (by simpa using all)
    | some link =>
      have member : link ∈ v.links := all.mem_iff.mpr (by simp)
      simp only [destroyLinks, call, Tree.bind_eq, Tree.ask_bind]
      refine ⟨⟨loaded, member⟩, fun _ b step => ?_⟩
      obtain rfl := step
      have left : (v.links.erase link).Perm (rest.filterMap id) := by
        simpa using all.erase link
      exact ih (v := { v with links := v.links.erase link }) loaded left

theorem close_file_does {file : Option String} (opened : v.file = file.isSome) :
    Does l (closeFile l file) (fun _ b => b = { v with file := false }) v := by
  cases file with
  | none =>
    have closed : v.file = false := opened
    exact (show v = { v with file := false } by rw [← closed])
  | some path =>
    simp only [closeFile, Tree.bind_eq]
    refine (progress_does _).bind ?_
    rintro _ b rfl
    refine ⟨opened, fun closed c step => ?_⟩
    obtain rfl := step
    cases closed with
    | true => exact rfl
    | false => exact ⟨trivial, fun _ d step => step⟩

theorem cleanup_does {file : Option String} {links : List (Option Nat)} {err : Int} {skel : Bool}
    (opened : v.file = file.isSome) (loaded : v.skel = skel) (all : v.links.Perm (links.filterMap id))
    (unloaded : skel = false → links = []) :
    Does l (cleanupFile l file skel links err) (fun code b =>
      (code = 0 ↔ err = 0) ∧ b = { v with file := false, skel := false, links := [] }) v := by
  have left : ∀ w : Held, Does l (do
      let code : Int := if err ≠ 0 then 1 else 0
      call (.printf (l.farewell ++ " Exiting with code " ++ toString code ++ ".\n"))
      pure code) (fun code b => (code = 0 ↔ err = 0) ∧ b = w) w := by
    intro w
    refine ⟨trivial, fun _ b step => ?_⟩
    obtain rfl := step
    refine ⟨?_, rfl⟩
    by_cases fine : err = 0
    · simp [fine]
    · simp [fine]
  simp only [cleanupFile, Tree.bind_eq]
  refine (close_file_does opened).bind ?_
  rintro _ _ rfl
  cases skel with
  | true =>
    refine (destroy_links_does (v := { v with file := false }) loaded all).bind ?_
    rintro _ _ rfl
    refine ⟨⟨loaded, rfl⟩, fun _ b step => ?_⟩
    obtain rfl := step
    exact left _
  | false =>
    obtain rfl := unloaded rfl
    have empty : v.links = [] := List.perm_nil.mp all
    refine (left { v with file := false }).mono ?_
    rintro code _ ⟨same, rfl⟩
    refine ⟨same, ?_⟩
    rw [show ({ v with file := false, skel := false, links := [] } : Held) = { v with file := false } by
      rw [← empty, ← loaded]]

end

/- When main returns, nothing is held; it returns 0 exactly if no step failed, and the
   statistics were written unless something stopped it. It always returns when it was given
   a duration, after two rounds for each second at the latest. -/
def Ended (l : Loader) (rounds : Nat) : Option Int → Held → Prop
  | none, v => v.duration ≤ 0 ∨ (rounds : Int) ≤ 2 * v.duration
  | some code, v => v.file = false ∧ v.skel = false ∧ v.links = [] ∧
    (code = 0 ↔ v.broken = false ∧ v.lost = 0) ∧
    (v.dumped = true ↔ v.wanted = true ∧ v.broken = false ∧ (l.stopAtFailure = true → v.lost = 0))

def nothingHeld : Held := ⟨false, false, [], 0, 0, false, false, false, 0, false, 0⟩

section
variable {l : Loader} {strerror : Int → String} {v : Held}

/- From here on nothing more is attached or lost. -/
theorem cleanup_ends {file : Option String} {rounds : Nat} {duration : Int} {run : Attached} {b w : Held}
    (attached : Attaching l file.isSome file.isSome duration run b) (opened : w.file = file.isSome)
    (loaded : w.skel = true) (links : w.links = b.links) (broken : w.broken = b.broken)
    (lost : w.lost = b.lost) (dumped : w.dumped = true ↔
      w.wanted = true ∧ w.broken = false ∧ (l.stopAtFailure = true → w.lost = 0)) :
    Does l ((cleanupFile l file true run.links run.err).bind fun code => .done (some code))
      (Ended l rounds) w := by
  refine (cleanup_does opened loaded (links ▸ attached.links) (by simp)).bind ?_
  rintro code _ ⟨exit, rfl⟩
  refine ⟨rfl, rfl, rfl, ?_, dumped⟩
  rw [exit, attached.err, ← broken, ← lost]

theorem report_attached_does (run : Attached) : Does l (reportAttached l run) (fun _ c => c = v) v := by
  unfold reportAttached
  split <;> exact progress_does _

theorem trace_does {file : Option String} {rounds : Nat} (few : l.probesToAttach.length ≤ l.maxProbes)
    (opened : v.file = file.isSome) (wants : v.wanted = file.isSome) (empty : v.skel = false)
    (bare : v.links = []) (fresh : v.tried = 0 ∧ v.lost = 0 ∧ v.broken = false ∧ v.dumped = false) :
    Does l (trace l strerror v.duration file rounds) (Ended l rounds) v := by
  obtain ⟨tried, lost, sound, early⟩ := fresh
  simp only [trace, call, Tree.bind_eq, Tree.ask_bind, Tree.pure_eq]
  refine ⟨empty, fun loaded b step => ?_⟩
  obtain rfl := step
  cases loaded with
  | false =>
    simp only [Bool.false_eq_true, ↓reduceIte]
    refine ⟨trivial, fun _ c step => ?_⟩
    obtain rfl := step
    change Does l ((cleanupFile l file false [] 1).bind fun code => .done (some code)) _ _
    refine (cleanup_does (v := { v with skel := false, broken := v.broken || !false }) opened rfl
      (by simp [bare]) fun _ => rfl).bind ?_
    rintro code _ ⟨exit, rfl⟩
    refine ⟨rfl, rfl, rfl, ?_, ?_⟩
    · simp [exit]
    · simp [early]
  | true =>
    simp only [↓reduceIte]
    refine (progress_does _).bind ?_
    rintro _ _ rfl
    have start : Attaching l file.isSome file.isSome v.duration ⟨[], 0, 0, false⟩
        { v with skel := true, broken := v.broken || !true } :=
      ⟨opened, wants, rfl, rfl, by simp [bare], early, by simp [sound, lost], by simp [sound, lost]⟩
    refine (attach_probes_does start rfl (by simpa [tried] using few)).bind ?_
    intro run b attached
    by_cases halted : run.stopped = true
    · rw [if_pos halted]
      refine cleanup_ends attached attached.opened attached.loaded rfl rfl rfl ?_
      rcases attached.stopped.mp halted with broken | ⟨strict, someLost⟩
      · simp [attached.early, broken]
      · simp [attached.early, strict, someLost]
    · rw [if_neg halted]
      have went : b.broken = false ∧ (l.stopAtFailure = true → b.lost = 0) := by
        rw [attached.stopped, not_or, not_and, not_not] at halted
        exact ⟨by simpa using halted.1, halted.2⟩
      refine (report_attached_does run).bind ?_
      rintro _ _ rfl
      refine ⟨trivial, fun _ c step => ?_⟩
      obtain rfl := step
      refine ⟨trivial, ?_⟩
      rintro _ _ ⟨first, _, rfl, rfl⟩
      have waits := wait_loop_does l v.duration rounds (v := { c with clock := first }) (s := first)
        (n := 0) (Or.inr (by simp)) (by omega)
      refine waits.bind ?_
      rintro ended _ ⟨⟨signalled, clock, rfl⟩, bound⟩
      cases ended with
      | false =>
        simp only [Bool.false_eq_true, ↓reduceIte]
        change c.duration ≤ 0 ∨ (rounds : Int) ≤ 2 * c.duration
        rw [attached.lasts]
        simpa using bound rfl
      | true =>
        simp only [↓reduceIte]
        by_cases written : file.isSome = true
        · rw [if_pos written]
          refine ⟨⟨attached.opened.trans written, attached.loaded, attached.early⟩, fun _ d step => ?_⟩
          obtain rfl := step
          exact cleanup_ends attached attached.opened attached.loaded rfl rfl rfl
            ⟨fun _ => ⟨attached.wants.trans written, went⟩, fun _ => rfl⟩
        · rw [if_neg written]
          exact cleanup_ends attached attached.opened attached.loaded rfl rfl rfl
            (by simp [attached.early, attached.wants, written])

theorem main_gives_back (l : Loader) (strerror : Int → String) (rounds : Nat)
    (few : l.probesToAttach.length ≤ l.maxProbes) :
    Does l (main l strerror rounds) (Ended l rounds) nothingHeld := by
  simp only [main, call, Tree.bind_eq, Tree.ask_bind, Tree.pure_eq]
  refine ⟨trivial, fun answer b step => ?_⟩
  obtain ⟨err, args⟩ := answer
  have parsed : b = { nothingHeld with
      wanted := args.aggDataFilepath.isSome, duration := args.durationSec, broken := err != 0 } := step
  subst b
  dsimp only
  by_cases fine : err = 0
  · rw [if_neg (not_not.mpr fine)]
    subst fine
    cases path : args.aggDataFilepath with
    | none =>
      exact trace_does (v := { nothingHeld with duration := args.durationSec }) few rfl rfl rfl rfl
        ⟨rfl, rfl, rfl, rfl⟩
    | some path =>
      refine ⟨rfl, fun opened b step => ?_⟩
      obtain rfl := step
      cases opened with
      | false =>
        simp only [Bool.false_eq_true, ↓reduceIte]
        refine ⟨trivial, fun _ c step => ?_⟩
        obtain rfl := step
        refine ⟨rfl, rfl, rfl, ?_, ?_⟩
        · simp [EXIT_FAILURE]
        · simp [nothingHeld]
      | true =>
        simp only [↓reduceIte]
        refine ⟨trivial, fun _ c step => ?_⟩
        obtain rfl := step
        exact trace_does (v := { nothingHeld with file := true, wanted := true, duration := args.durationSec })
          few rfl rfl rfl rfl ⟨rfl, rfl, rfl, rfl⟩
  · rw [if_pos fine]
    refine ⟨rfl, rfl, rfl, ?_, ?_⟩
    · simp [nothingHeld, fine]
    · simp [nothingHeld, fine]

end

/-- All three loaders. -/
theorem loaders_give_back (strerror : Int → String) (rounds : Nat) :
    Does guestLoader (main guestLoader strerror rounds) (Ended guestLoader rounds) nothingHeld ∧
    Does serverLoader (main serverLoader strerror rounds) (Ended serverLoader rounds) nothingHeld ∧
    Does hostQemuLoader (main hostQemuLoader strerror rounds) (Ended hostQemuLoader rounds) nothingHeld := by
  constructor
  · exact main_gives_back guestLoader strerror rounds (by decide)
  · constructor
    · exact main_gives_back serverLoader strerror rounds (by decide)
    · exact main_gives_back hostQemuLoader strerror rounds (by decide)

end LoaderCleanup
