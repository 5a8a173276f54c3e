import Millwork.Proofs.Repository.Remembering
/-!
# Refreshed repositories

A repository that has been reloaded, and a lazy one that has been invalidated, answers like one that is
opened anew on the same directory: both answer from the documents alone. A lazy repository may have
remembered some of them already, an eager one has read them all. Only an eager repository whose directory
cannot be listed fails to reload, and then it stays as it is.
-/
namespace Millwork
namespace DirectoryRepository
/-- The same files: every path leads to the same file, and the directory has the same documents, though
it may list them in another order. It can be listed either way, or neither way. -/
structure Relisted (path : String) (files again : Files) : Prop where
  file (name : String) : again.fileAt? name = files.fileAt? name
  documents : (documents path files).Perm (documents path again)
  listed : (∃ folder, again.listing path = .ok folder) ↔ ∃ folder, files.listing path = .ok folder

theorem Relisted.refl (path : String) (files : Files) : Relisted path files files :=
  ⟨fun _ => rfl, .refl _, .rfl⟩

section
variable {path : String} {files again : Files}

private theorem Relisted.distinct (h : Relisted path files again) (hd : Distinct path files) :
    Distinct path again :=
  (h.documents.map Prod.fst).nodup_iff.1 hd

private theorem Relisted.lookup (h : Relisted path files again) (hd : Distinct path files)
    (key : String) : (DirectoryRepository.documents path again).lookup key =
      (DirectoryRepository.documents path files).lookup key := by
  apply Option.ext
  intro content
  exact (Document.lookup_eq_some_iff (h.distinct hd) key content).trans
    (h.documents.mem_iff.symm.trans (Document.lookup_eq_some_iff hd key content).symm)

private theorem Relisted.lookup_shown (h : Relisted path files again) (hd : Distinct path files)
    (key : String) :
    (shownDocuments path again).lookup key = (shownDocuments path files).lookup key := by
  cases hf : files.listing path with
  | ok folder =>
    obtain ⟨other, ho⟩ := h.listed.2 ⟨folder, hf⟩
    rw [shownDocuments_of_listing hf, shownDocuments_of_listing ho, h.lookup hd]
  | error reason =>
    cases ho : again.listing path with
    | ok other =>
      obtain ⟨folder, hl⟩ := h.listed.1 ⟨other, ho⟩
      rw [hf] at hl
      cases hl
    | error other => rw [shownDocuments_of_refused hf, shownDocuments_of_refused ho]

private theorem Relisted.readable (h : Relisted path files again) (hd : Distinct path files)
    (key : String) (rules : RuleSet) : Readable path again key rules ↔ Readable path files key rules := by
  rw [Readable, Readable, findDocument?_eq, findDocument?_eq, h.file, h.lookup_shown hd]

end

def current? (strategy : Strategy) (path : String) (files : Files) (key : String) : Option RuleSet :=
  match strategy with
  | .eager => ((documents path files).lookup key).bind Document.decode?
  | .lazy => loadKey? path files key

/-- What is remembered is what the documents say, and an eager repository remembers all of it. -/
structure UpToDate (repository : DirectoryRepository) (files : Files) : Prop where
  sound (key : String) (rules : RuleSet) : repository.snapshot[key]? = some rules →
    current? repository.strategy repository.path files key = some rules
  complete (key : String) (rules : RuleSet) : repository.strategy = .eager →
    current? repository.strategy repository.path files key = some rules →
    repository.snapshot[key]? = some rules

section
variable {repository fresh : DirectoryRepository} {files again : Files}

private theorem current?_relisted (strategy : Strategy) {path : String}
    (h : Relisted path files again) (hd : Distinct path files) (key : String) :
    current? strategy path again key = current? strategy path files key := by
  cases strategy with
  | eager => simp only [current?, h.lookup hd]
  | lazy =>
    apply Option.ext
    intro rules
    exact (loadKey?_eq_some_iff ..).trans
      ((h.readable hd key rules).trans (loadKey?_eq_some_iff ..).symm)

private theorem UpToDate.relisted (hu : repository.UpToDate again)
    (h : Relisted repository.path files again) (hd : Distinct repository.path files) :
    repository.UpToDate files where
  sound key rules hs := by
    rw [← current?_relisted repository.strategy h hd]
    exact hu.sound key rules hs
  complete key rules he hc := by
    rw [← current?_relisted repository.strategy h hd] at hc
    exact hu.complete key rules he hc

/-- Asking an up-to-date repository gives what the documents say and leaves it up to date. -/
theorem UpToDate.resolve (hu : repository.UpToDate files)
    (hd : Distinct repository.path files) (h : Relisted repository.path files again)
    (name : String) :
    (repository.resolve again name).1 =
        (current? repository.strategy repository.path files (RuleSet.keyOf name)).getD .empty ∧
      (repository.resolve again name).2.UpToDate files := by
  cases hk : repository.snapshot[RuleSet.keyOf name]? with
  | some rules =>
    rw [resolve_of_remembered hk, hu.sound _ _ hk]
    exact ⟨rfl, hu⟩
  | none =>
    rcases repository.strategy.eager_or_lazy with he | hl
    · have hc : current? repository.strategy repository.path files (RuleSet.keyOf name) = none := by
        rw [Option.eq_none_iff_forall_ne_some]
        intro rules hs
        rw [hu.complete _ rules he hs] at hk
        cases hk
      rw [resolve_eager he, hk, hc]
      exact ⟨rfl, hu⟩
    · have hc : current? repository.strategy repository.path files (RuleSet.keyOf name) =
          loadKey? repository.path again (RuleSet.keyOf name) := by
        rw [← current?_relisted repository.strategy h hd, hl]
        rfl
      cases hr : loadKey? repository.path again (RuleSet.keyOf name) with
      | none =>
        rw [resolve_of_not_readable hl hk ((loadKey?_eq_none_iff ..).1 hr), hc, hr]
        exact ⟨rfl, hu⟩
      | some rules =>
        rw [resolve_of_readable hl hk ((loadKey?_eq_some_iff ..).1 hr), hc, hr]
        refine ⟨rfl, ?_, ?_⟩
        · intro key other hs
          by_cases hkey : RuleSet.keyOf name = key
          · have he : rules = other := by simpa [hkey] using hs
            rw [← hkey, ← he]
            exact hc.trans hr
          · refine hu.sound key other ?_
            simpa [Std.ExtTreeMap.getElem?_insert, hkey] using hs
        · intro key other he
          rw [hl] at he
          cases he

private theorem getElem?_foldl_loadKey? (path : String) (files : Files) (keys : List String)
    (snapshot : Snapshot) (key : String) :
    (keys.foldl (fun snapshot key =>
      match loadKey? path files key with
      | some rules => snapshot.insert key rules
      | none => snapshot) snapshot)[key]? =
      if key ∈ keys then (loadKey? path files key).or snapshot[key]? else snapshot[key]? := by
  induction keys generalizing snapshot with
  | nil => simp
  | cons first keys ih =>
    rw [List.foldl_cons, ih]
    by_cases hf : first = key
    · subst hf
      cases loadKey? path files first <;> simp
    · have hne : key ≠ first := Ne.symm hf
      cases loadKey? path files first with
      | none => simp [hne]
      | some rules => simp [hne, Std.ExtTreeMap.getElem?_insert, hf]

private theorem getElem?_reloadKeys (path : String) (files : Files) (keys : List String)
    (key : String) :
    (reloadKeys path files keys)[key]? = if key ∈ keys then loadKey? path files key else none := by
  have h : (reloadKeys path files keys)[key]? = _ := getElem?_foldl_loadKey? path files keys ∅ key
  rw [h]
  split <;> simp

private theorem reload_cases (h : repository.reload files = .ok fresh) :
    (repository.strategy = .eager ∧ ∃ folder, files.listing repository.path = .ok folder ∧
        fresh = { repository with snapshot := Document.loadAll folder }) ∨
      repository.strategy = .lazy ∧ fresh = { repository with
        snapshot := reloadKeys repository.path files repository.snapshot.keys } := by
  rcases repository.strategy.eager_or_lazy with he | hl
  · cases hf : files.listing repository.path with
    | ok folder =>
      rw [reload_eager he hf] at h
      exact .inl ⟨he, folder, rfl, (Except.ok.inj h).symm⟩
    | error reason =>
      rw [reload_refused he hf] at h
      cases h
  · rw [reload_lazy hl] at h
    exact .inr ⟨hl, (Except.ok.inj h).symm⟩

private theorem reload_eq_error_iff (repository : DirectoryRepository) (files : Files)
    (failure : ReadFailure) : repository.reload files = .error failure ↔
      repository.strategy = .eager ∧
        ∃ reason, files.listing repository.path = .error reason ∧
          failure = ⟨repository.path, reason⟩ := by
  rcases repository.strategy.eager_or_lazy with he | hl
  · cases hf : files.listing repository.path with
    | ok folder => simp [reload_eager he hf]
    | error reason => simp [reload_refused he hf, he, eq_comm]
  · simp [reload_lazy hl, hl]

theorem getElem?_reload_lazy (hl : repository.strategy = .lazy)
    (h : repository.reload files = .ok fresh) (key : String) (rules : RuleSet) :
    fresh.snapshot[key]? = some rules ↔
      (repository.snapshot[key]?).isSome ∧ Readable repository.path files key rules := by
  have hk : key ∈ repository.snapshot.keys ↔ (repository.snapshot[key]?).isSome := by
    rw [Std.ExtTreeMap.mem_keys, Std.ExtTreeMap.mem_iff_isSome_getElem?]
  rw [reload_lazy hl] at h
  rw [← Except.ok.inj h, getElem?_reloadKeys, ← hk, ← loadKey?_eq_some_iff]
  split
  · rename_i hm
    simp [hm]
  · rename_i hm
    simp [hm]

theorem reload_directory (h : repository.reload files = .ok fresh) :
    fresh.path = repository.path ∧ fresh.strategy = repository.strategy := by
  rcases reload_cases h with ⟨-, folder, -, rfl⟩ | ⟨-, rfl⟩
  · exact ⟨rfl, rfl⟩
  · exact ⟨rfl, rfl⟩

private theorem upToDate_reload (h : repository.reload files = .ok fresh)
    (hd : Distinct repository.path files) : fresh.UpToDate files := by
  rcases reload_cases h with ⟨he, folder, hf, rfl⟩ | ⟨hl, hfresh⟩
  · have hc (key : String) : (Document.loadAll folder)[key]? =
        current? repository.strategy repository.path files key := by
      rw [getElem?_loadAll_listing hd hf, he]
      rfl
    exact ⟨fun key rules hs => (hc key).symm.trans hs, fun key rules _ hs => (hc key).trans hs⟩
  · obtain ⟨hpath, hstrategy⟩ := reload_directory h
    refine ⟨fun key rules hs => ?_, fun key rules he => ?_⟩
    · rw [hstrategy, hpath, hl]
      exact (loadKey?_eq_some_iff ..).2 ((getElem?_reload_lazy hl h key rules).1 hs).2
    · rw [hstrategy, hl] at he
      cases he

private theorem upToDate_of_forgotten (hl : repository.strategy = .lazy)
    (hn : repository.snapshot = ∅) : repository.UpToDate files where
  sound key rules hs := by
    rw [hn] at hs
    simp at hs
  complete key rules he := by
    rw [hl] at he
    cases he

theorem opened_directory {path : String} {strategy : Strategy}
    (h : opened path strategy files = .ok fresh) : fresh.path = path ∧ fresh.strategy = strategy := by
  cases strategy with
  | eager =>
    have hreload : reload { path, strategy := .eager } files = .ok fresh := h
    exact reload_directory hreload
  | lazy =>
    cases h
    exact ⟨rfl, rfl⟩

theorem upToDate_opened {path : String} {strategy : Strategy}
    (h : opened path strategy files = .ok fresh) (hd : Distinct path files) :
    fresh.UpToDate files := by
  cases strategy with
  | eager =>
    have hreload : reload { path, strategy := .eager } files = .ok fresh := h
    exact upToDate_reload hreload hd
  | lazy =>
    cases h
    exact upToDate_of_forgotten rfl rfl

theorem opened_eq_error_iff (path : String) (strategy : Strategy) (files : Files)
    (failure : ReadFailure) : opened path strategy files = .error failure ↔
      strategy = .eager ∧ ∃ reason, files.listing path = .error reason ∧ failure = ⟨path, reason⟩ := by
  cases strategy with
  | eager => exact reload_eq_error_iff { path, strategy := .eager } files failure
  | lazy => simp [opened]

theorem exists_opened {path : String} {strategy : Strategy}
    (h : strategy = .eager → ∃ folder, files.listing path = .ok folder) :
    ∃ fresh, opened path strategy files = .ok fresh := by
  cases ho : opened path strategy files with
  | ok fresh => exact ⟨fresh, rfl⟩
  | error failure =>
    obtain ⟨he, reason, hr, -⟩ := (opened_eq_error_iff ..).1 ho
    obtain ⟨folder, hf⟩ := h he
    rw [hr] at hf
    cases hf

end

/-- The answers to names that are asked for one after another, each with the files as they are listed
then. -/
def resolveAll (repository : DirectoryRepository) : List (Files × String) → List RuleSet
  | [] => []
  | (files, name) :: later =>
    let found := repository.resolve files name
    found.1 :: found.2.resolveAll later

private theorem UpToDate.resolveAll {repository : DirectoryRepository} {files : Files}
    (hu : repository.UpToDate files) (hd : Distinct repository.path files)
    {later : List (Files × String)}
    (h : ∀ asked ∈ later, Relisted repository.path files asked.1) :
    repository.resolveAll later = (later.map Prod.snd).map fun name =>
      (current? repository.strategy repository.path files (RuleSet.keyOf name)).getD .empty := by
  induction later generalizing repository with
  | nil => rfl
  | cons asked later ih =>
    obtain ⟨again, name⟩ := asked
    obtain ⟨hanswer, hnext⟩ := hu.resolve hd (h _ List.mem_cons_self) name
    have hlater := resolve_extends repository again name
    have hrest := ih hnext (by rwa [hlater.path]) fun asked hm => by
      rw [hlater.path]
      exact h asked (List.mem_cons_of_mem _ hm)
    rw [hlater.path, hlater.strategy] at hrest
    rw [DirectoryRepository.resolveAll, hanswer, hrest]
    rfl

private theorem UpToDate.like_opened {repository fresh : DirectoryRepository} {files again : Files}
    (hu : repository.UpToDate files) (hd : Distinct repository.path files)
    (hl : Relisted repository.path files again)
    (ho : opened repository.path repository.strategy again = .ok fresh)
    {later others : List (Files × String)}
    (ha : ∀ asked ∈ later ++ others, Relisted repository.path files asked.1)
    (hn : later.map Prod.snd = others.map Prod.snd) :
    repository.resolveAll later = fresh.resolveAll others := by
  obtain ⟨hpath, hstrategy⟩ := opened_directory ho
  have hopened : fresh.UpToDate files :=
    (upToDate_opened ho (hl.distinct hd)).relisted (by rwa [hpath]) (by rwa [hpath])
  have hlater := hu.resolveAll hd fun asked hm => ha asked (List.mem_append_left others hm)
  have hasked : ∀ asked ∈ others, Relisted fresh.path files asked.1 := by
    rw [hpath]
    exact fun asked hm => ha asked (List.mem_append_right later hm)
  have hothers := hopened.resolveAll (by rwa [hpath]) hasked
  rw [hlater, hothers, hpath, hstrategy, hn]

end DirectoryRepository

namespace Session
open DirectoryRepository (Distinct Readable Relisted)

/-- A step after which the repository answers from the files alone, if it does not fail. -/
def Step.renews (strategy : Strategy) : Step → Prop
  | .reload => True
  | .invalidate => strategy = .lazy
  | _ => False

def Answer.Succeeds (answer : Answer) : Prop :=
  ∀ failure, answer ≠ .failed failure

section
variable {session : Session}

theorem step_reload_of_ok {fresh : DirectoryRepository}
    (h : session.repository.reload session.files = .ok fresh) :
    session.step .reload = (.size fresh.snapshot.size, { session with repository := fresh }) := by
  rw [step, h, replaced]

theorem step_reload_of_error {failure : ReadFailure}
    (h : session.repository.reload session.files = .error failure) :
    session.step .reload = (.failed failure, session) := by
  rw [step, h, replaced]

private theorem exists_reloaded (h : (session.step .reload).1.Succeeds) :
    ∃ fresh, session.repository.reload session.files = .ok fresh ∧
      session.step .reload = (.size fresh.snapshot.size, { session with repository := fresh }) := by
  cases hr : session.repository.reload session.files with
  | ok fresh => exact ⟨fresh, rfl, step_reload_of_ok hr⟩
  | error failure =>
    rw [step_reload_of_error hr] at h
    exact absurd rfl (h failure)

private theorem step_renews {last : Step} (hr : last.renews session.repository.strategy)
    (hs : (session.step last).1.Succeeds) :
    let after := (session.step last).2
    after.files = session.files ∧ after.repository.path = session.repository.path ∧
      (after.repository.strategy = .eager →
        ∃ folder, session.files.listing session.repository.path = .ok folder) := by
  cases last with
  | reload =>
    obtain ⟨fresh, hreload, hstep⟩ := exists_reloaded hs
    obtain ⟨hpath, hstrategy⟩ := DirectoryRepository.reload_directory hreload
    simp only [hstep]
    refine ⟨trivial, hpath, fun he => ?_⟩
    rcases DirectoryRepository.reload_cases hreload with ⟨-, folder, hf, -⟩ | ⟨hl, -⟩
    · exact ⟨folder, hf⟩
    · rw [hstrategy, hl] at he
      cases he
  | invalidate => exact ⟨rfl, rfl, fun he => Strategy.noConfusion (he.symm.trans hr)⟩
  | _ => exact hr.elim

private theorem upToDate_step {last : Step} (hr : last.renews session.repository.strategy)
    (hs : (session.step last).1.Succeeds) (hd : Distinct session.repository.path session.files) :
    (session.step last).2.repository.UpToDate session.files := by
  cases last with
  | reload =>
    obtain ⟨fresh, hreload, hstep⟩ := exists_reloaded hs
    rw [hstep]
    exact DirectoryRepository.upToDate_reload hreload hd
  | invalidate => exact DirectoryRepository.upToDate_of_forgotten hr rfl
  | _ => exact hr.elim

private theorem answer_of_forgotten (he : session.repository.strategy = .eager)
    (hn : session.repository.snapshot = ∅) {asking : Step} {name : String}
    (ha : asking.asked? = some name) : (session.step asking).1 = asking.answerBy .empty := by
  rw [step_of_asked ha, DirectoryRepository.resolve_eager he, hn, Std.ExtTreeMap.getElem?_empty,
    Option.getD_none]

private theorem run_forgotten {more : List Step}
    (hm : ∀ step ∈ more, step.refreshes = false ∨ step = .invalidate)
    (he : session.repository.strategy = .eager) (hn : session.repository.snapshot = ∅) :
    (session.run more).repository = session.repository := by
  induction more generalizing session with
  | nil => rfl
  | cons step more ih =>
    have hfirst : (session.step step).2.repository = session.repository := by
      rcases hm step List.mem_cons_self with hq | rfl
      · exact step_eager hq he
      · obtain ⟨files, path, strategy, snapshot⟩ := session
        cases hn
        rfl
    rw [run_cons, ih (fun later hl => hm later (List.mem_cons_of_mem step hl))
      (by rw [hfirst, he]) (by rw [hfirst, hn]), hfirst]

end

/-- What reloading and invalidating do to a repository. -/
structure Refreshed (before : Session) : Prop where
  /-- After a reload that did not fail, or when a lazy repository has forgotten all that it had read, a
  repository can be opened on the directory, and both give the same answers to the same names, as long
  as the files stay the same and no two documents have the same key. The order in which the directory is
  listed may be another each time. -/
  like_opened (last : Step) : last.renews before.repository.strategy →
    (before.step last).1.Succeeds →
    let after := (before.step last).2
    let same := Relisted after.repository.path after.files
    Distinct after.repository.path after.files → ∀ again, same again →
    ∃ fresh, DirectoryRepository.opened after.repository.path after.repository.strategy again =
        .ok fresh ∧
      ∀ later others : List (Files × String), (∀ asked ∈ later ++ others, same asked.1) →
        later.map Prod.snd = others.map Prod.snd →
        after.repository.resolveAll later = fresh.resolveAll others
  /-- A reload answers how many keys are remembered then. -/
  size : (before.step .reload).1.Succeeds →
    (before.step .reload).1 = .size (before.step .reload).2.repository.snapshot.keys.length
  /-- A lazy repository remembers those of its keys whose document can be read when it is reloaded. -/
  reread : before.repository.strategy = .lazy → ∀ (key : String) (rules : RuleSet),
    (before.step .reload).2.repository.snapshot[key]? = some rules ↔
      (before.repository.snapshot[key]?).isSome ∧
        Readable before.repository.path before.files key rules
  /-- An eager repository that is invalidated has no rules for any name until it is reloaded. -/
  emptied : before.repository.strategy = .eager → ∀ more asking name,
    (∀ step ∈ more, step.refreshes = false ∨ step = .invalidate) → asking.asked? = some name →
    (((before.step .invalidate).2.run more).step asking).1 = asking.answerBy .empty
  /-- A reload fails just if the repository is eager and its directory cannot be listed. -/
  fails (failure : ReadFailure) : (before.step .reload).1 = .failed failure ↔
    before.repository.strategy = .eager ∧
      ∃ reason, before.files.listing before.repository.path = .error reason ∧
        failure = ⟨before.repository.path, reason⟩
  unchanged (failure : ReadFailure) :
    (before.step .reload).1 = .failed failure → (before.step .reload).2 = before

/-- However long a session has gone on, a reload makes the repository like one that is opened anew. -/
theorem run_refreshed (session : Session) (steps : List Step) : Refreshed (session.run steps) where
  like_opened last hr hs := by
    intro after same hd again hl
    obtain ⟨hfiles, hpath, hlisted⟩ := step_renews hr hs
    have hafter : after.repository.UpToDate after.files := by
      rw [hfiles, hpath] at hd
      rw [hfiles]
      exact upToDate_step hr hs hd
    obtain ⟨fresh, ho⟩ := DirectoryRepository.exists_opened fun he => hl.listed.2 (by
      rw [hfiles, hpath]
      exact hlisted he)
    exact ⟨fresh, ho, fun later others ha hn => hafter.like_opened hd hl ho ha hn⟩
  size hs := by
    obtain ⟨fresh, -, hstep⟩ := exists_reloaded hs
    rw [hstep, Std.ExtTreeMap.length_keys]
  reread hl key rules := by
    have hreload := DirectoryRepository.reload_lazy hl (session.run steps).files
    rw [step_reload_of_ok hreload]
    exact DirectoryRepository.getElem?_reload_lazy hl hreload key rules
  emptied he more asking name hm ha := by
    have hforgotten : ((session.run steps).step .invalidate).2.repository.snapshot = ∅ := rfl
    have heager : ((session.run steps).step .invalidate).2.repository.strategy = .eager := he
    have hr := run_forgotten hm heager hforgotten
    exact answer_of_forgotten (by rw [hr, heager]) (by rw [hr, hforgotten]) ha
  fails failure := by
    rw [← DirectoryRepository.reload_eq_error_iff]
    cases h : (session.run steps).repository.reload (session.run steps).files with
    | ok fresh => simp [step_reload_of_ok h]
    | error other => simp [step_reload_of_error h]
  unchanged failure h := by
    cases hr : (session.run steps).repository.reload (session.run steps).files with
    | ok fresh =>
      rw [step_reload_of_ok hr] at h
      cases h
    | error other => rw [step_reload_of_error hr]

/-- A document that has been written again after it was read is read again by a reload. -/
theorem run_refreshed_doors :
    let opened : Session := ⟨{ root := [] }, { path := "r", strategy := .lazy }⟩
    let before := opened.run [
      .change (·.write "r/doors.json" (Document.ofWidth "5")),
      .resolve "doors",
      .change (·.write "r/doors.json" (Document.ofWidth "7"))]
    let after := (before.step .reload).2
    let asked := [(after.files, "Doors"), (after.files, "none")]
    (before.step .reload).1.Succeeds ∧ Distinct after.repository.path after.files ∧
      (∃ fresh, DirectoryRepository.opened after.repository.path after.repository.strategy after.files =
          .ok fresh ∧ after.repository.resolveAll asked = fresh.resolveAll asked) ∧
      (after.repository.resolveAll asked).map (fun rules => (rules.get .width).map (·.formula)) =
        [["7"], []] := by
  intro opened before after asked
  have hs : (before.step .reload).1.Succeeds := by
    intro failure hf
    have hl : before.repository.strategy = .lazy := by decide +kernel
    rw [step_reload_of_ok (DirectoryRepository.reload_lazy hl before.files)] at hf
    cases hf
  have hd : Distinct after.repository.path after.files := by
    unfold Distinct Document.Distinct
    decide +kernel
  have hsame : ∀ found ∈ asked ++ asked, Relisted after.repository.path after.files found.1 := by
    intro found hm
    have hf : found.1 = after.files := by
      simp only [asked, List.cons_append, List.nil_append, List.mem_cons, List.not_mem_nil,
        or_false] at hm
      rcases hm with rfl | rfl | rfl | rfl <;> rfl
    rw [hf]
    exact .refl _ _
  obtain ⟨fresh, ho, hanswers⟩ :=
    (run_refreshed _ _).like_opened .reload trivial hs hd after.files (.refl _ _)
  exact ⟨hs, hd, ⟨fresh, ho, hanswers asked asked hsame rfl⟩, by decide +kernel⟩

end Session
end Millwork
