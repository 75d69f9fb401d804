import FastSafeIO.CompressReports

/- When compressing keeps every experiment: as a directory, or in an archive that exists. -/
namespace ReportsKept
open CompressReports

/-- The experiment is held under another name than this one. -/
def HeldApart (fs : Files) (name : Name) (e : Nat) : Prop :=
  ∃ n ∈ fs.keys, n ≠ name ∧ e ∈ experimentsAt fs n

/-- An archive of the name that tar is going to replace holds nothing that is only there. -/
def OldKept (fs : Files) (archive : Name) : Prop :=
  match fs.lookup archive with
  | some (.archive old) => ∀ e ∈ old, HeldApart fs archive e
  | _ => True

/-- The condition on a step: tar replaces no archive that alone holds an experiment, the
    second expansion of $dirs gives only names that tar was given and not the new archive,
    and no experiment gets a name that is still to be deleted. -/
def Careful (s : State) : Action → Prop
  | .create name =>
    match s.phase with
    | .deleting names _ => isName name = true → name ∉ names
    | _ => True
  | .tarSucceeds | .tarFails (some _) =>
    match s.phase with
    | .archiving ((key, _) :: _) => OldKept s.fs (archiveName key)
    | _ => True
  | .expand =>
    match s.phase with
    | .stored key dirs names _ =>
      ∀ n ∈ expand s.fs dirs, isName n = true → n ∈ names ∧ n ≠ archiveName key
    | _ => True
  | _ => True

instance (fs : Files) (archive : Name) : Decidable (OldKept fs archive) := by
  unfold OldKept HeldApart
  split <;> infer_instance

instance (s : State) (a : Action) : Decidable (Careful s a) := by
  unfold Careful
  split
  all_goals
    first
    | infer_instance
    | split <;> infer_instance

def CarefulRun : State → List Action → Prop
  | _, [] => True
  | s, a :: rest => Careful s a ∧ ∀ t ∈ step s a, CarefulRun t rest

instance decidableCarefulRun : (s : State) → (actions : List Action) → Decidable (CarefulRun s actions)
  | _, [] => isTrue trivial
  | s, a :: rest =>
    have : DecidablePred fun t => CarefulRun t rest := fun t => decidableCarefulRun t rest
    inferInstanceAs (Decidable (Careful s a ∧ ∀ t ∈ step s a, CarefulRun t rest))

/-- Every experiment ever created is in a directory or in an archive. -/
def Intact (s : State) : Prop := ∀ e < s.created, ∃ n, e ∈ experimentsAt s.fs n

/-- What is going to be deleted is in the archive just written. -/
def Covered (fs : Files) : Phase → Prop
  | .stored key _ names _ =>
    ∃ content, fs.lookup (archiveName key) = some (.archive content) ∧
      ∀ n ∈ names, isName n = true → n ≠ archiveName key →
        n ∈ fs.keys ∧ ∀ e ∈ experimentsAt fs n, e ∈ content
  | .deleting names _ =>
    ∃ archive content, fs.lookup archive = some (.archive content) ∧
      ∀ n ∈ names, isName n = true → n ≠ archive ∧ ∀ e ∈ experimentsAt fs n, e ∈ content
  | _ => True

structure Kept (s : State) : Prop where
  intact : Intact s
  covered : Covered s.fs s.phase

variable {fs : Files} {s t : State} {n : Name} {e : Nat}

theorem at_insert (fs : Files) (name : Name) (node : Node) (n : Name) :
    experimentsAt (fs.insert name node) n =
      if n = name then node.experiments else experimentsAt fs n := by
  unfold experimentsAt
  by_cases same : n = name
  · rw [if_pos same, same, AList.lookup_insert]
  · rw [if_neg same, AList.lookup_insert_ne same]

theorem at_erase (fs : Files) (name n : Name) :
    experimentsAt (fs.erase name) n = if n = name then [] else experimentsAt fs n := by
  unfold experimentsAt
  by_cases same : n = name
  · rw [if_pos same, same, AList.lookup_erase]
  · rw [if_neg same, AList.lookup_erase_ne same]

theorem at_absent (absent : n ∉ fs.keys) : experimentsAt fs n = [] := by
  have missing : fs.lookup n = none :=
    AList.lookup_eq_none.mpr fun member => absent (AList.mem_keys.mp member)
  unfold experimentsAt
  rw [missing]

theorem at_archive {content : List Nat} (found : fs.lookup n = some (.archive content)) :
    experimentsAt fs n = content := by
  unfold experimentsAt
  rw [found]
  rfl

theorem held_present (held : e ∈ experimentsAt fs n) : n ∈ fs.keys := by
  by_contra absent
  rw [at_absent absent] at held
  cases held

theorem create_kept (kept : Kept s) (careful : Careful s (.create n))
    (moved : step s (.create n) = some t) : Kept t := by
  obtain ⟨fresh, same⟩ := Option.ite_none_left_eq_some.mp moved
  cases same
  have old : ∀ m, m ∈ s.fs.keys → experimentsAt (s.fs.insert n (.dir s.created)) m =
      experimentsAt s.fs m := by
    intro m present
    have other : m ≠ n := fun same => fresh (same ▸ present)
    rw [at_insert, if_neg other]
  constructor
  · intro e created
    by_cases new : e = s.created
    · refine ⟨n, ?_⟩
      rw [at_insert, if_pos rfl, new]
      exact List.mem_singleton_self _
    · have before : e < s.created := by
        have bound : e < s.created + 1 := created
        omega
      obtain ⟨m, held⟩ := kept.intact e before
      refine ⟨m, ?_⟩
      rw [old m (held_present held)]
      exact held
  · have covered := kept.covered
    change Covered (s.fs.insert n (.dir s.created)) s.phase
    have apart : ∀ m content, s.fs.lookup m = some (.archive content) →
        (s.fs.insert n (.dir s.created)).lookup m = some (.archive content) := by
      intro m content found
      have other : m ≠ n := by
        intro same
        rw [same] at found
        exact fresh (AList.mem_keys.mp (AList.lookup_isSome.mp (Option.isSome_of_eq_some found)))
      rw [AList.lookup_insert_ne other]
      exact found
    unfold Careful at careful
    cases phase : s.phase with
    | idle => trivial
    | archiving groups => trivial
    | stored key dirs names groups =>
      rw [phase] at covered
      obtain ⟨content, found, inside⟩ := covered
      refine ⟨content, apart _ _ found, ?_⟩
      intro m member name other
      obtain ⟨present, held⟩ := inside m member name other
      rw [old m present]
      exact ⟨AList.mem_keys.mpr ((AList.mem_insert s.fs).mpr (Or.inr (AList.mem_keys.mp present))), held⟩
    | deleting names groups =>
      rw [phase] at covered careful
      obtain ⟨archive, content, found, inside⟩ := covered
      refine ⟨archive, content, apart _ _ found, ?_⟩
      intro m member name
      obtain ⟨other, held⟩ := inside m member name
      have not_new : m ≠ n := by
        intro same
        rw [same] at member name
        exact careful name member
      rw [at_insert, if_neg not_new]
      exact ⟨other, held⟩

theorem insert_intact {archive : Name} {content : List Nat} (intact : Intact s)
    (kept : OldKept s.fs archive) (file : isDir s.fs archive = false) :
    ∀ e < s.created, ∃ n, e ∈ experimentsAt (s.fs.insert archive (.archive content)) n := by
  intro e created
  obtain ⟨n, held⟩ := intact e created
  by_cases same : n = archive
  · subst same
    unfold OldKept at kept
    unfold isDir at file
    unfold experimentsAt at held
    cases found : s.fs.lookup n with
    | none =>
      rw [found] at held
      cases held
    | some node =>
      rw [found] at held kept file
      cases node with
      | dir d => cases file
      | archive old =>
        obtain ⟨m, _, other, still⟩ := kept e held
        refine ⟨m, ?_⟩
        rw [at_insert, if_neg other]
        exact still
  · refine ⟨n, ?_⟩
    rw [at_insert, if_neg same]
    exact held

theorem tar_succeeds_kept (kept : Kept s) (careful : Careful s .tarSucceeds)
    (moved : step s .tarSucceeds = some t) : Kept t := by
  unfold step at moved
  unfold Careful at careful
  dsimp only at moved careful
  split at moved
  · rename_i key dirs groups phase
    obtain ⟨⟨_, can⟩, same⟩ := Option.ite_none_right_eq_some.mp moved
    cases same
    rw [phase] at careful
    simp only [tarCan, Bool.and_eq_true, Bool.not_eq_true', List.all_eq_true, List.mem_filter,
      decide_eq_true_eq, ne_eq] at can
    obtain ⟨file, present⟩ := can
    constructor
    · exact insert_intact kept.intact careful file
    · refine ⟨_, AList.lookup_insert _, ?_⟩
      intro n member name other
      have there := present n ⟨member, name, other⟩
      constructor
      · exact AList.mem_keys.mpr ((AList.mem_insert s.fs).mpr (Or.inr (AList.mem_keys.mp there)))
      · intro e held
        rw [at_insert, if_neg other] at held
        exact List.mem_flatMap.mpr ⟨n, List.mem_filter.mpr ⟨member, by simp [name, other]⟩, held⟩
  · cases moved

theorem tar_fails_kept {left : Option (List Nat)} (kept : Kept s) (careful : Careful s (.tarFails left))
    (moved : step s (.tarFails left) = some t) : Kept t := by
  unfold step at moved
  dsimp only at moved
  split at moved
  · rename_i key dirs groups phase
    obtain ⟨_, rest⟩ := Option.ite_none_right_eq_some.mp moved
    cases left with
    | none =>
      cases rest
      exact ⟨kept.intact, trivial⟩
    | some part =>
      obtain ⟨can, same⟩ := Option.ite_none_left_eq_some.mp rest
      cases same
      unfold Careful at careful
      rw [phase] at careful
      have file : isDir s.fs (archiveName key) = false := by
        cases dir : isDir s.fs (archiveName key) with
        | false => rfl
        | true => exact absurd (Or.inl dir) can
      exact ⟨insert_intact kept.intact careful file, trivial⟩
  · cases moved

theorem expand_kept (kept : Kept s) (careful : Careful s .expand)
    (moved : step s .expand = some t) : Kept t := by
  unfold step at moved
  unfold Careful at careful
  dsimp only at moved careful
  split at moved
  · rename_i key dirs names groups phase
    cases moved
    have covered := kept.covered
    rw [phase] at careful covered
    obtain ⟨content, found, inside⟩ := covered
    refine ⟨kept.intact, _, content, found, ?_⟩
    intro n member name
    obtain ⟨given, other⟩ := careful n member name
    exact ⟨other, (inside n given name other).2⟩
  · cases moved

theorem remove_kept (kept : Kept s) (moved : step s .remove = some t) : Kept t := by
  unfold step at moved
  dsimp only at moved
  split at moved
  · rename_i n names groups phase
    cases moved
    have covered := kept.covered
    rw [phase] at covered
    obtain ⟨archive, content, found, inside⟩ := covered
    have later : ∀ m ∈ names, m ∈ n :: names := fun m member => List.mem_cons_of_mem _ member
    cases name : isName n with
    | false =>
      refine ⟨kept.intact, archive, content, found, ?_⟩
      intro m member
      exact inside m (later m member)
    | true =>
      obtain ⟨other, stored⟩ := inside n List.mem_cons_self name
      have still : (s.fs.erase n).lookup archive = some (.archive content) := by
        rw [AList.lookup_erase_ne other.symm]
        exact found
      have held_apart : ∀ e m, e ∈ experimentsAt s.fs m → ∃ m, e ∈ experimentsAt (s.fs.erase n) m := by
        intro e m held
        by_cases same : m = n
        · refine ⟨archive, ?_⟩
          rw [at_archive still]
          exact stored e (same ▸ held)
        · refine ⟨m, ?_⟩
          rw [at_erase, if_neg same]
          exact held
      constructor
      · intro e created
        obtain ⟨m, held⟩ := kept.intact e created
        exact held_apart e m held
      · refine ⟨archive, content, still, ?_⟩
        intro m member name
        obtain ⟨apart, inside⟩ := inside m (later m member) name
        refine ⟨apart, ?_⟩
        intro e held
        change e ∈ experimentsAt (s.fs.erase n) m at held
        rw [at_erase] at held
        split at held
        · cases held
        · exact inside e held
  · cases moved

theorem step_kept {a : Action} (kept : Kept s) (careful : Careful s a) (moved : step s a = some t) :
    Kept t := by
  cases a with
  | create name => exact create_kept kept careful moved
  | start yearMonth dirs order =>
    unfold step at moved
    dsimp only at moved
    split at moved
    · obtain ⟨_, same⟩ := Option.ite_none_right_eq_some.mp moved
      cases same
      exact ⟨kept.intact, trivial⟩
    · cases moved
  | skip =>
    unfold step at moved
    dsimp only at moved
    split at moved
    · obtain ⟨_, same⟩ := Option.ite_none_right_eq_some.mp moved
      cases same
      exact ⟨kept.intact, trivial⟩
    · cases moved
  | tarSucceeds => exact tar_succeeds_kept kept careful moved
  | tarFails left => exact tar_fails_kept kept careful moved
  | expand => exact expand_kept kept careful moved
  | remove => exact remove_kept kept moved
  | next =>
    unfold step at moved
    dsimp only at moved
    split at moved
    · cases moved
      exact ⟨kept.intact, trivial⟩
    · cases moved
      exact ⟨kept.intact, trivial⟩
    · cases moved

theorem run_kept {actions : List Action} (kept : Kept s) (careful : CarefulRun s actions)
    (ran : run s actions = some t) : Kept t := by
  induction actions generalizing s with
  | nil =>
    cases ran
    exact kept
  | cons a rest ih =>
    obtain ⟨u, moved, later⟩ := Option.bind_eq_some_iff.mp ran
    exact ih (step_kept kept careful.1 moved) (careful.2 u moved) later

theorem careful_before {before after : List Action} (careful : CarefulRun s (before ++ after)) :
    CarefulRun s before := by
  induction before generalizing s with
  | nil => trivial
  | cons a rest ih => exact ⟨careful.1, fun t moved => ih (careful.2 t moved)⟩

/-- In a run whose steps all meet the condition no experiment is lost at any moment. -/
theorem no_experiment_lost {actions : List Action} (start : s.phase = .idle) (intact : Intact s)
    (careful : CarefulRun s actions) {before after : List Action} (moment : actions = before ++ after)
    (ran : run s before = some t) : Intact t := by
  have kept : Kept s := by
    refine ⟨intact, ?_⟩
    rw [start]
    trivial
  rw [moment] at careful
  exact (run_kept kept (careful_before careful) ran).intact

def noReports : State := ⟨∅, 0, .idle⟩

def experiment (flow : String) : Name := "2025-01-01-a-flow".toList ++ flow.toList ++ "-ringbuf".toList

def groupText (dirs : List Name) : List Char := List.intercalate [' '] dirs

/-- Three experiments are created, archived and deleted. -/
def compress (flows : List String) : List Action :=
  let dirs := flows.map experiment
  dirs.map .create ++
    [.start "2025-12".toList dirs.reverse [("2025-01-01-a".toList, groupText dirs.reverse)],
     .tarSucceeds, .expand, .remove, .remove, .remove, .next, .next]

/-- Experiments of a sweep that goes on after the first ones have been compressed. -/
def twice : List Action := compress ["1", "2", "3"] ++ compress ["4", "5", "6"]

theorem twice_runs : ((run noReports twice).map fun t =>
    (t.created, t.fs.keys.all fun n => 0 ∉ experimentsAt t.fs n)) = some (6, true) := by
  decide +kernel

/-- The second run replaces the archive of the first one. -/
theorem first_archive_replaced : ∃ t, run noReports twice = some t ∧ Intact noReports ∧ ¬ Intact t := by
  obtain ⟨t, ran, found⟩ := Option.map_eq_some_iff.mp twice_runs
  obtain ⟨created, lost⟩ := Prod.mk.inj found
  refine ⟨t, ran, fun e none => absurd none (Nat.not_lt_zero e), ?_⟩
  intro intact
  obtain ⟨n, held⟩ := intact 0 (by omega)
  have gone := List.all_eq_true.mp lost n (held_present held)
  exact (of_decide_eq_true gone) held

theorem once_careful : CarefulRun noReports (compress ["1", "2", "3"]) ∧
    (run noReports (compress ["1", "2", "3"])).isSome = true := by
  decide +kernel

theorem compressed_once_kept : ∃ t, run noReports (compress ["1", "2", "3"]) = some t ∧ Intact t := by
  obtain ⟨t, ran⟩ := Option.isSome_iff_exists.mp once_careful.2
  refine ⟨t, ran, ?_⟩
  exact no_experiment_lost rfl (fun e none => absurd none (Nat.not_lt_zero e)) once_careful.1
    (List.append_nil _).symm ran

end ReportsKept
