import Millwork.Files.Edit
import Millwork.Repository.Session
import Millwork.Proofs.Repository.Documents
/-!
# What a repository remembers between refreshes

As long as a directory is neither opened nor reloaded nor invalidated, an eager repository stays as it
is, and a lazy one only adds what it has read, whatever happens to the files. So what has been read for
a key stays its answer, and a key without a document that can be decoded leaves no trace.
-/
namespace Millwork
theorem Strategy.eager_or_lazy (strategy : Strategy) : strategy = .eager ∨ strategy = .lazy := by
  cases strategy
  · exact .inl rfl
  · exact .inr rfl

namespace DirectoryRepository

section
variable {repository : DirectoryRepository} {files : Files} {name : String}

theorem resolve_of_remembered {rules : RuleSet}
    (h : repository.snapshot[RuleSet.keyOf name]? = some rules) :
    repository.resolve files name = (rules, repository) := by
  simp only [resolve, h]

theorem resolve_eager (he : repository.strategy = .eager) :
    repository.resolve files name =
      ((repository.snapshot[RuleSet.keyOf name]?).getD .empty, repository) := by
  cases h : repository.snapshot[RuleSet.keyOf name]? with
  | some rules => exact resolve_of_remembered h
  | none => simp only [resolve, h, he, Option.getD_none]

theorem resolve_of_readable {rules : RuleSet} (hl : repository.strategy = .lazy)
    (h : repository.snapshot[RuleSet.keyOf name]? = none)
    (hr : Readable repository.path files (RuleSet.keyOf name) rules) :
    repository.resolve files name =
      (rules, { repository with
        snapshot := repository.snapshot.insert (RuleSet.keyOf name) rules }) := by
  simp only [resolve, h, hl, (loadKey?_eq_some_iff ..).2 hr]

theorem resolve_of_not_readable (hl : repository.strategy = .lazy)
    (h : repository.snapshot[RuleSet.keyOf name]? = none)
    (hr : ∀ rules, ¬Readable repository.path files (RuleSet.keyOf name) rules) :
    repository.resolve files name = (.empty, repository) := by
  simp only [resolve, h, hl, (loadKey?_eq_none_iff ..).2 hr]

private theorem resolve_cases (repository : DirectoryRepository) (files : Files) (name : String) :
    (repository.resolve files name).2 = repository ∨
      ∃ rules, repository.strategy = .lazy ∧ repository.snapshot[RuleSet.keyOf name]? = none ∧
        Readable repository.path files (RuleSet.keyOf name) rules ∧
        repository.resolve files name =
          (rules, { repository with
            snapshot := repository.snapshot.insert (RuleSet.keyOf name) rules }) := by
  cases hk : repository.snapshot[RuleSet.keyOf name]? with
  | some rules => exact .inl (by rw [resolve_of_remembered hk])
  | none =>
    rcases repository.strategy.eager_or_lazy with hs | hs
    · exact .inl (by rw [resolve_eager hs])
    · by_cases hr : ∃ rules, Readable repository.path files (RuleSet.keyOf name) rules
      · obtain ⟨rules, hr⟩ := hr
        exact .inr ⟨rules, hs, rfl, hr, resolve_of_readable hs hk hr⟩
      · exact .inl (by rw [resolve_of_not_readable hs hk (not_exists.1 hr)])

end

/-- The one directory at different times, what is remembered later including what was before. -/
structure Extends (later earlier : DirectoryRepository) : Prop where
  path : later.path = earlier.path
  strategy : later.strategy = earlier.strategy
  snapshot : ∀ (key : String) (rules : RuleSet),
    earlier.snapshot[key]? = some rules → later.snapshot[key]? = some rules

theorem Extends.refl (repository : DirectoryRepository) : repository.Extends repository :=
  ⟨rfl, rfl, fun _ _ h => h⟩

theorem Extends.trans {a b c : DirectoryRepository} (hab : a.Extends b) (hbc : b.Extends c) :
    a.Extends c where
  path := hab.path.trans hbc.path
  strategy := hab.strategy.trans hbc.strategy
  snapshot key rules h := hab.snapshot key rules (hbc.snapshot key rules h)

theorem resolve_extends (repository : DirectoryRepository) (files : Files) (name : String) :
    (repository.resolve files name).2.Extends repository := by
  rcases resolve_cases repository files name with h | ⟨rules, -, hn, -, h⟩
  · rw [h]
    exact .refl repository
  · rw [h]
    refine ⟨rfl, rfl, fun key other ho => ?_⟩
    have hne : RuleSet.keyOf name ≠ key := by
      rintro rfl
      rw [hn] at ho
      cases ho
    simp only [Std.ExtTreeMap.getElem?_insert, Std.LawfulEqCmp.compare_eq_iff_eq, hne, if_false]
    exact ho

end DirectoryRepository

namespace Session
open DirectoryRepository (Readable)

/-- A step that asks for a rule set does to the repository what asking for the rule set alone does. -/
theorem step_of_asked {session : Session} {step : Step} {name : String}
    (h : step.asked? = some name) :
    session.step step =
      (step.answerBy (session.repository.resolve session.files name).1,
        { session with repository := (session.repository.resolve session.files name).2 }) := by
  cases step with
  | resolve other =>
    cases Option.some.inj h
    rfl
  | calculate options order =>
    cases Option.some.inj h
    rfl
  | _ => cases h

private theorem repository_step_cases {step : Step} (hq : step.refreshes = false) (session : Session) :
    (∃ name, step.asked? = some name) ∨ (session.step step).2.repository = session.repository := by
  cases step with
  | change edit => exact .inr rfl
  | resolve name => exact .inl ⟨name, rfl⟩
  | calculate options order => exact .inl ⟨options.keyFor order, rfl⟩
  | _ => cases hq

theorem step_extends {step : Step} (hq : step.refreshes = false) (session : Session) :
    (session.step step).2.repository.Extends session.repository := by
  rcases repository_step_cases hq session with ⟨name, ha⟩ | h
  · rw [step_of_asked ha]
    exact DirectoryRepository.resolve_extends ..
  · rw [h]
    exact .refl session.repository

private theorem run_extends {steps : List Step} (hq : ∀ step ∈ steps, step.refreshes = false)
    (session : Session) : (session.run steps).repository.Extends session.repository := by
  induction steps generalizing session with
  | nil => exact .refl session.repository
  | cons step steps ih =>
    have hfirst := step_extends (hq step List.mem_cons_self) session
    have hrest := ih (fun later hl => hq later (List.mem_cons_of_mem step hl)) (session.step step).2
    exact hrest.trans hfirst

theorem step_eager {step : Step} (hq : step.refreshes = false) {session : Session}
    (he : session.repository.strategy = .eager) :
    (session.step step).2.repository = session.repository := by
  rcases repository_step_cases hq session with ⟨name, ha⟩ | h
  · rw [step_of_asked ha, DirectoryRepository.resolve_eager he]
  · exact h

private theorem run_eager {steps : List Step} (hq : ∀ step ∈ steps, step.refreshes = false)
    {session : Session} (he : session.repository.strategy = .eager) :
    (session.run steps).repository = session.repository := by
  induction steps generalizing session with
  | nil => rfl
  | cons step steps ih =>
    have hfirst := step_eager (hq step List.mem_cons_self) he
    rw [run_cons, ih (fun later hl => hq later (List.mem_cons_of_mem step hl)) (by rw [hfirst, he]),
      hfirst]

/-- What a step remembers anew it has just been asked for and has read. -/
theorem step_origin {step : Step} (hq : step.refreshes = false) {session : Session} {key : String}
    {rules : RuleSet} (h : (session.step step).2.repository.snapshot[key]? = some rules) :
    session.repository.snapshot[key]? = some rules ∨
      (∃ name, step.asked? = some name ∧ RuleSet.keyOf name = key) ∧
        session.repository.snapshot[key]? = none ∧
        Readable session.repository.path session.files key rules := by
  rcases repository_step_cases hq session with ⟨name, ha⟩ | hsame
  · rw [step_of_asked ha] at h
    rcases DirectoryRepository.resolve_cases session.repository session.files name with
      hkept | ⟨read, -, hn, hr, hadd⟩
    · rw [hkept] at h
      exact .inl h
    · rw [hadd] at h
      by_cases hk : RuleSet.keyOf name = key
      · have he : read = rules := by simpa [hk] using h
        rw [hk] at hn hr
        exact .inr ⟨⟨name, ha, hk⟩, hn, he ▸ hr⟩
      · refine .inl ?_
        simpa [Std.ExtTreeMap.getElem?_insert, hk] using h
  · rw [hsame] at h
    exact .inl h

private theorem run_origin {steps : List Step} (hq : ∀ step ∈ steps, step.refreshes = false)
    {session : Session} {key : String} {rules : RuleSet}
    (h : (session.run steps).repository.snapshot[key]? = some rules) :
    session.repository.snapshot[key]? = some rules ∨
      ∃ before asking after, steps = before ++ asking :: after ∧
        (∃ name, asking.asked? = some name ∧ RuleSet.keyOf name = key) ∧
        (session.run before).repository.snapshot[key]? = none ∧
        Readable session.repository.path (session.run before).files key rules := by
  induction steps generalizing session with
  | nil => exact .inl h
  | cons step steps ih =>
    have hstep : step.refreshes = false := hq step List.mem_cons_self
    rcases ih (fun later hl => hq later (List.mem_cons_of_mem step hl)) h with
      hnext | ⟨before, asking, after, rfl, hasked, hnone, hread⟩
    · rcases step_origin hstep hnext with hnow | ⟨hasked, hnone, hread⟩
      · exact .inl hnow
      · exact .inr ⟨[], step, steps, rfl, hasked, hnone, hread⟩
    · rw [(step_extends hstep session).path] at hread
      exact .inr ⟨step :: before, asking, after, rfl, hasked, hnone, hread⟩

/-- What steps that refresh nothing lead to, `asking` being any step that then asks for a rule set,
be it directly or for a calculation. -/
structure Unrefreshed (before : Session) (steps : List Step) (after : Session) : Prop where
  /-- An eager repository stays the same and answers from what it has. -/
  eager : before.repository.strategy = .eager →
    after.repository.snapshot = before.repository.snapshot ∧
    ∀ asking name, asking.asked? = some name → after.step asking =
      (asking.answerBy ((before.repository.snapshot[RuleSet.keyOf name]?).getD .empty), after)
  /-- What is remembered stays as it is. -/
  grows (key : String) (rules : RuleSet) :
    before.repository.snapshot[key]? = some rules → after.repository.snapshot[key]? = some rules
  /-- A lazy repository remembers what it answers with, if it reads the document of a new key. -/
  adds : before.repository.strategy = .lazy → ∀ asking name rules, asking.asked? = some name →
    after.repository.snapshot[RuleSet.keyOf name]? = none →
    Readable before.repository.path after.files (RuleSet.keyOf name) rules →
    after.step asking = (asking.answerBy rules, { after with repository := { after.repository with
      snapshot := after.repository.snapshot.insert (RuleSet.keyOf name) rules } })
  /-- Otherwise it stays the same. -/
  keeps : before.repository.strategy = .lazy → ∀ asking name, asking.asked? = some name →
    after.repository.snapshot[RuleSet.keyOf name]? ≠ none ∨
      (∀ rules, ¬Readable before.repository.path after.files (RuleSet.keyOf name) rules) →
    (after.step asking).2 = after
  /-- Whatever is new was read from a document when it was asked for and not remembered. -/
  origin (key : String) (rules : RuleSet) : after.repository.snapshot[key]? = some rules →
    before.repository.snapshot[key]? = some rules ∨
      ∃ earlier asking later, steps = earlier ++ asking :: later ∧
        (∃ name, asking.asked? = some name ∧ RuleSet.keyOf name = key) ∧
        (before.run earlier).repository.snapshot[key]? = none ∧
        Readable before.repository.path (before.run earlier).files key rules
  /-- What is remembered for a key is the answer to each of its names from now on. -/
  answers (name : String) (rules : RuleSet) :
    after.repository.snapshot[RuleSet.keyOf name]? = some rules →
    ∀ more asking other, (∀ step ∈ more, step.refreshes = false) → asking.asked? = some other →
    RuleSet.keyOf other = RuleSet.keyOf name →
    ((after.run more).step asking).1 = asking.answerBy rules

/-- However the files change, steps that refresh nothing leave an eager repository as it is, and let a
lazy one remember the documents that it could read when it was first asked for them, and nothing else. -/
theorem run_unrefreshed (session : Session) (steps : List Step)
    (hq : ∀ step ∈ steps, step.refreshes = false) :
    Unrefreshed session steps (session.run steps) where
  eager he := by
    have hr := run_eager hq he
    refine ⟨by rw [hr], ?_⟩
    intro asking name ha
    rw [step_of_asked ha, hr, DirectoryRepository.resolve_eager he, ← hr]
  grows := (run_extends hq session).snapshot
  adds hl asking name rules ha hn hr := by
    have hlater := run_extends hq session
    rw [step_of_asked ha,
      DirectoryRepository.resolve_of_readable (hlater.strategy.trans hl) hn (by rwa [hlater.path])]
  keeps hl asking name ha hk := by
    have hlater := run_extends hq session
    rw [step_of_asked ha]
    rcases DirectoryRepository.resolve_cases (session.run steps).repository (session.run steps).files
      name with hsame | ⟨rules, -, hn, hr, -⟩
    · rw [hsame]
    · rw [hlater.path] at hr
      rcases hk with hsome | hnot
      · exact absurd hn hsome
      · exact absurd hr (hnot rules)
  origin _ _ := run_origin hq
  answers name rules h more asking other hm ha hk := by
    have hlater := (run_extends hm (session.run steps)).snapshot _ _ h
    rw [← hk] at hlater
    rw [step_of_asked ha, DirectoryRepository.resolve_of_remembered hlater]

/-- A document that was missing at first stays the answer once it has been read, though it is gone. -/
theorem run_unrefreshed_doors :
    let steps : List Step := [.resolve "doors",
      .change (·.write "r/doors.json" (Document.ofWidth "5")),
      .resolve "Doors", .change fun _ => { root := [] }]
    let opened : Session := ⟨{ root := [] }, { path := "r", strategy := .lazy }⟩
    let session := opened.run steps
    (∀ step ∈ steps, step.refreshes = false) ∧
      ∃ rules, (rules.get .width).map (·.formula) = ["5"] ∧
        session.repository.snapshot[RuleSet.keyOf "doors"]? = some rules ∧
        (session.step (.resolve "DOORS")).1 = .rules rules := by
  intro steps opened session
  have hq : ∀ step ∈ steps, step.refreshes = false := by simp [steps, Step.refreshes]
  have hread : session.repository.snapshot[RuleSet.keyOf "doors"]?.map
      (fun rules => (rules.get .width).map (·.formula)) = some ["5"] := by
    decide +kernel
  obtain ⟨rules, hs, hw⟩ := Option.map_eq_some_iff.1 hread
  have hlater := run_unrefreshed opened steps hq
  exact ⟨hq, rules, hw, hs,
    hlater.answers "doors" rules hs [] (.resolve "DOORS") "DOORS" (by simp) rfl (by decide +kernel)⟩

end Session
end Millwork
