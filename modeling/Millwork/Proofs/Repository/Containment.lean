import Millwork.Proofs.Repository.Strategies
/-!
# What lies outside a directory

A key is joined to the path of the directory before anything is checked. So a name with a slash in it
leads to files of other directories, the empty name to a file that is no document, and a directory at
the empty path to files where the paths start. For every other name a lazy repository reads the
documents of the directory itself and nothing else, then and whenever it remembers what it has read.
-/
namespace Millwork
namespace DirectoryRepository

/-- An entry of the directory at the path has the key, and this is its content. -/
def IsOwnDocument (path : String) (files : Files) (key : String) (content : ByteArray) : Prop :=
  ∃ folder entry, files.folderAt? path = some folder ∧ (entry, .file content) ∈ folder ∧
    Folder.IsPlain entry ∧ Document.key? entry (.file content) = some key

/-- Looking for the name does not lead out of the directory at the path. -/
def Confined (path name : String) : Prop :=
  path ≠ "" ∧ name ≠ "" ∧ '/' ∉ name.toList

private theorem IsOwnDocument.confined {path : String} {files : Files} {name : String}
    {content : ByteArray}
    (h : IsOwnDocument path files (RuleSet.keyOf name) content) : Confined path name := by
  obtain ⟨folder, entry, hf, -, hplain, hk⟩ := h
  obtain ⟨stem, extension, rfl, hne, -, hkey⟩ := (Document.key?_file_eq_some_iff ..).1 hk
  refine ⟨?_, ?_, ?_⟩
  · rintro rfl
    cases hf
  · rintro rfl
    exact hne ((RuleSet.keyOf_eq_empty_iff stem).1 (hkey.trans ((RuleSet.keyOf_eq_empty_iff "").2 rfl)))
  · intro hs
    rw [← RuleSet.slash_mem_keyOf_iff, ← hkey, RuleSet.slash_mem_keyOf_iff] at hs
    have hslash : '/' ∈ (stem ++ "." ++ extension).toList := by simp [hs]
    exact hplain.2.2.2 hslash

private theorem HasDocument.isOwnDocument {path : String} {files : Files} {name : String}
    {content : ByteArray} (hs : '/' ∉ name.toList)
    (h : HasDocument path files (RuleSet.keyOf name) content) :
    IsOwnDocument path files (RuleSet.keyOf name) content := by
  obtain ⟨folder, stem, extension, hf, hm, hne, hext, hk⟩ := h
  have hstem : '/' ∉ stem.toList := by
    rwa [← RuleSet.slash_mem_keyOf_iff, hk, RuleSet.slash_mem_keyOf_iff]
  have hextension : '/' ∉ extension.toList := by
    intro hmem
    have hl : Char.toLower '/' ∈ "json".toList := hext ▸ List.mem_map_of_mem hmem
    revert hl
    decide
  have hlength : extension.toList.length = 4 := by
    rw [← List.length_map (f := Char.toLower), hext]
    rfl
  have hplain : Folder.IsPlain (stem ++ "." ++ extension) := by
    apply Folder.isPlain_of_length
    · simp only [String.toList_append, List.length_append, hlength]
      omega
    · simp [hstem, hextension]
  exact ⟨folder, _, hf, hm, hplain,
    (Document.key?_file_eq_some_iff ..).2 ⟨stem, extension, rfl, hne, hext, hk⟩⟩

private theorem isOwnDocument_iff_confined {path : String} {files : Files} {name : String}
    {content : ByteArray} (h : findDocument? path files (RuleSet.keyOf name) = some content) :
    IsOwnDocument path files (RuleSet.keyOf name) content ↔ Confined path name := by
  refine ⟨IsOwnDocument.confined, ?_⟩
  rintro ⟨hp, hne, hs⟩
  have hm : (RuleSet.keyOf name, content) ∈ documents path files := by
    rw [findDocument?_eq, Option.or_eq_some_iff] at h
    -- the path made of the name comes first, then the entries with the key
    rcases h with hfile | ⟨-, hlookup⟩
    · exact mem_documents_of_fileAt? hp (mt (RuleSet.keyOf_eq_empty_iff name).1 hne)
        (mt (RuleSet.slash_mem_keyOf_iff name).1 hs) (RuleSet.keyOf_keyOf name) hfile
    · rcases shownDocuments_eq path files with hshown | hshown
      · obtain ⟨before, after, hsplit, -⟩ := List.lookup_eq_some_iff.1 hlookup
        rw [← hshown, hsplit]
        exact List.mem_append_right before List.mem_cons_self
      · rw [hshown] at hlookup
        cases hlookup
  exact ((mem_documents_iff ..).1 hm).isOwnDocument hs

private theorem readable_confined_iff {path : String} {files : Files} {name : String} {rules : RuleSet}
    (h : Readable path files (RuleSet.keyOf name) rules) :
    (∃ content, IsOwnDocument path files (RuleSet.keyOf name) content ∧
      Document.decode? content = some rules) ↔ Confined path name := by
  obtain ⟨content, hfound, hr⟩ := h
  constructor
  · rintro ⟨other, hown, -⟩
    exact hown.confined
  · intro hc
    exact ⟨content, (isOwnDocument_iff_confined hfound).2 hc, hr⟩

end DirectoryRepository

namespace Session
open DirectoryRepository (Readable findDocument? IsOwnDocument Confined isOwnDocument_iff_confined
  readable_confined_iff)

/-- Whether a step replaces the repository by another one. -/
def Step.opens : Step → Bool
  | .opening .. => true
  | _ => false

private theorem step_directory {step : Step} (ho : step.opens = false) (session : Session) :
    (session.step step).2.repository.path = session.repository.path ∧
      (session.step step).2.repository.strategy = session.repository.strategy := by
  cases hq : step.refreshes with
  | false =>
    have hlater := step_extends hq session
    exact ⟨hlater.path, hlater.strategy⟩
  | true =>
    cases step with
    | opening path strategy => cases ho
    | reload =>
      cases hr : session.repository.reload session.files with
      | ok fresh =>
        rw [step_reload_of_ok hr]
        exact DirectoryRepository.reload_directory hr
      | error failure =>
        rw [step_reload_of_error hr]
        exact ⟨rfl, rfl⟩
    | invalidate => exact ⟨rfl, rfl⟩
    | _ => cases hq

private theorem run_directory {steps : List Step} (ho : ∀ step ∈ steps, step.opens = false)
    (session : Session) :
    (session.run steps).repository.path = session.repository.path ∧
      (session.run steps).repository.strategy = session.repository.strategy := by
  induction steps generalizing session with
  | nil => exact ⟨rfl, rfl⟩
  | cons step steps ih =>
    have hfirst := step_directory (ho step List.mem_cons_self) session
    have hrest := ih (fun later hl => ho later (List.mem_cons_of_mem step hl)) (session.step step).2
    exact ⟨hrest.1.trans hfirst.1, hrest.2.trans hfirst.2⟩

private theorem step_provenance {step : Step} (ho : step.opens = false) {session : Session}
    (hl : session.repository.strategy = .lazy) {key : String} {rules : RuleSet}
    (h : (session.step step).2.repository.snapshot[key]? = some rules) :
    session.repository.snapshot[key]? = some rules ∨
      Readable session.repository.path session.files key rules := by
  cases hq : step.refreshes with
  | false => exact (step_origin hq h).imp_right fun hnew => hnew.2.2
  | true =>
    cases step with
    | opening path strategy => cases ho
    | reload =>
      have hreload := DirectoryRepository.reload_lazy hl session.files
      rw [step_reload_of_ok hreload] at h
      exact .inr ((DirectoryRepository.getElem?_reload_lazy hl hreload key rules).1 h).2
    | invalidate =>
      have hempty : (∅ : Snapshot)[key]? = some rules := h
      simp at hempty
    | _ => cases hq

private theorem run_provenance {steps : List Step} (ho : ∀ step ∈ steps, step.opens = false)
    {session : Session} (hl : session.repository.strategy = .lazy) {key : String} {rules : RuleSet}
    (h : (session.run steps).repository.snapshot[key]? = some rules) :
    session.repository.snapshot[key]? = some rules ∨
      ∃ earlier later, steps = earlier ++ later ∧
        Readable session.repository.path (session.run earlier).files key rules := by
  induction steps generalizing session with
  | nil => exact .inl h
  | cons step steps ih =>
    have hstep : step.opens = false := ho step List.mem_cons_self
    obtain ⟨hpath, hstrategy⟩ := step_directory hstep session
    rcases ih (fun later hm => ho later (List.mem_cons_of_mem step hm)) (hstrategy.trans hl) h with
      hnext | ⟨earlier, later, rfl, hread⟩
    · -- it was there after the first step already
      rcases step_provenance hstep hl hnext with hnow | hread
      · exact .inl hnow
      · exact .inr ⟨[], step :: steps, rfl, hread⟩
    · rw [hpath] at hread
      exact .inr ⟨step :: earlier, later, rfl, hread⟩

/-- What asking for a name reads after the steps, the directory at the path being opened before them. -/
structure Contained (path : String) (before : Session) (steps : List Step) (name : String) : Prop where
  /-- A file that is found is a document of the directory itself if the name does not lead out of it. -/
  found (content : ByteArray) :
    findDocument? path (before.run steps).files (RuleSet.keyOf name) = some content →
    (IsOwnDocument path (before.run steps).files (RuleSet.keyOf name) content ↔ Confined path name)
  /-- Rules that were not remembered and are not the default are those of such a document. -/
  fresh (rules : RuleSet) :
    (before.run steps).repository.snapshot[RuleSet.keyOf name]? = none → rules ≠ .empty →
    ((before.run steps).step (.resolve name)).1 = .rules rules →
    ((∃ content, IsOwnDocument path (before.run steps).files (RuleSet.keyOf name) content ∧
      Document.decode? content = some rules) ↔ Confined path name)
  /-- Rules that are remembered are those of such a document at an earlier time. -/
  recalled (rules : RuleSet) :
    (before.run steps).repository.snapshot[RuleSet.keyOf name]? = some rules →
    ((∃ earlier later content, steps = earlier ++ later ∧
      IsOwnDocument path (before.run earlier).files (RuleSet.keyOf name) content ∧
      Document.decode? content = some rules) ↔ Confined path name)

private theorem contained_of_lazy {path : String} {repository : DirectoryRepository} {files : Files}
    (hr : repository = { path, strategy := .lazy }) {steps : List Step}
    (ho : ∀ step ∈ steps, step.opens = false) (name : String) :
    Contained path ⟨files, repository⟩ steps name where
  found content h := isOwnDocument_iff_confined h
  fresh rules hn hne ha := by
    obtain ⟨hpath, hstrategy⟩ := run_directory ho ⟨files, repository⟩
    generalize run ⟨files, repository⟩ steps = session at *
    have hpath : session.repository.path = path := by rw [hpath, hr]
    have hlazy : session.repository.strategy = .lazy := by rw [hstrategy, hr]
    have hanswer : (session.repository.resolve session.files name).1 = rules := by
      have hasked : (Step.resolve name).asked? = some name := rfl
      rw [step_of_asked hasked] at ha
      exact Answer.rules.inj ha
    rw [← hpath]
    -- what cannot be read is answered by the default
    by_cases hread : ∃ read, Readable session.repository.path session.files (RuleSet.keyOf name) read
    · obtain ⟨read, hread⟩ := hread
      rw [DirectoryRepository.resolve_of_readable hlazy hn hread] at hanswer
      exact readable_confined_iff (hanswer ▸ hread)
    · rw [DirectoryRepository.resolve_of_not_readable hlazy hn (not_exists.1 hread)] at hanswer
      exact absurd hanswer.symm hne
  recalled rules hs := by
    subst hr
    rcases run_provenance ho rfl hs with hopened | ⟨earlier, later, hsplit, hread⟩
    · have hempty : (∅ : Snapshot)[RuleSet.keyOf name]? = some rules := hopened
      simp at hempty
    · constructor
      · rintro ⟨_, _, _, -, hown, -⟩
        exact hown.confined
      · intro hc
        obtain ⟨content, hown, hdecoded⟩ := (readable_confined_iff hread).2 hc
        exact ⟨earlier, later, content, hsplit, hown, hdecoded⟩

/-- A directory can always be opened lazily, and the repository stays within it for the names that do not
lead out of it, and for no others. -/
theorem run_contained (path : String) (files : Files) {steps : List Step}
    (ho : ∀ step ∈ steps, step.opens = false) (name : String) :
    ∃ repository, DirectoryRepository.opened path .lazy files = .ok repository ∧
      Contained path ⟨files, repository⟩ steps name :=
  ⟨{ path, strategy := .lazy }, rfl, contained_of_lazy rfl ho name⟩

/-- Rules that are remembered though all files are gone were read from the directory. -/
theorem run_contained_doors :
    let steps : List Step := [.change (·.write "doors.json" (Document.ofWidth "7")),
      .change (·.write "r/Doors.JSON" (Document.ofWidth "5")), .resolve "doors",
      .change fun _ => { root := [] }]
    (∀ step ∈ steps, step.opens = false) ∧
      ∃ repository, DirectoryRepository.opened "r" .lazy { root := [] } = .ok repository ∧
        let opened : Session := ⟨{ root := [] }, repository⟩
        ∃ rules, (rules.get .width).map (·.formula) = ["5"] ∧
          (opened.run steps).repository.snapshot[RuleSet.keyOf "DOORS"]? = some rules ∧
          ∃ earlier later content, steps = earlier ++ later ∧
            IsOwnDocument "r" (opened.run earlier).files (RuleSet.keyOf "DOORS") content ∧
            Document.decode? content = some rules := by
  intro steps
  have ho : ∀ step ∈ steps, step.opens = false := by simp [steps, Step.opens]
  obtain ⟨repository, hopened, hcontained⟩ := run_contained "r" { root := [] } ho "DOORS"
  refine ⟨ho, repository, hopened, ?_⟩
  intro opened
  have hread : (opened.run steps).repository.snapshot[RuleSet.keyOf "DOORS"]?.map
      (fun rules => (rules.get .width).map (·.formula)) = some ["5"] := by
    subst opened
    rw [← Except.ok.inj hopened]
    decide +kernel
  obtain ⟨rules, hs, hw⟩ := Option.map_eq_some_iff.1 hread
  have hconfined : Confined "r" "DOORS" := by
    unfold Confined
    decide
  exact ⟨rules, hw, hs, (hcontained.recalled rules hs).2 hconfined⟩

/-- A name that steps back out of the directory, and one that begins at the root, find the document beside
it, though the directory has no entries at all. -/
theorem answer_beside_directory :
    let files : Files :=
      { root := [("doors.json", .file (Document.ofWidth "5")), ("r", .folder [])] }
    let session : Session := ⟨files, { path := "r", strategy := .lazy }⟩
    DirectoryRepository.opened "r" .lazy files = .ok session.repository ∧
    ∀ name ∈ ["../doors", "/doors"],
      session.repository.snapshot[RuleSet.keyOf name]? = none ∧
      (∃ rules, rules ≠ .empty ∧ (session.step (.resolve name)).1 = .rules rules) ∧
      ∀ content, ¬IsOwnDocument "r" files (RuleSet.keyOf name) content := by
  intro files session
  refine ⟨rfl, fun name hname => ?_⟩
  have hslash : ∀ name ∈ ["../doors", "/doors"], '/' ∈ name.toList := by decide
  have hread : (DirectoryRepository.loadKey? "r" files (RuleSet.keyOf name)).map
      (fun rules => (rules.get .width).map (·.formula)) = some ["5"] := by
    simp only [List.mem_cons, List.not_mem_nil, or_false] at hname
    rcases hname with rfl | rfl
    · decide +kernel
    · decide +kernel
  obtain ⟨rules, hr, hw⟩ := Option.map_eq_some_iff.1 hread
  have hforgotten : session.repository.snapshot[RuleSet.keyOf name]? = none :=
    Std.ExtTreeMap.getElem?_empty
  refine ⟨hforgotten, ⟨rules, ?_, ?_⟩, fun content hown => ?_⟩
  · rintro rfl
    exact absurd hw (by decide)
  · have hasked : (Step.resolve name).asked? = some name := rfl
    rw [step_of_asked hasked, DirectoryRepository.resolve_of_readable rfl hforgotten
      ((DirectoryRepository.loadKey?_eq_some_iff ..).1 hr)]
    rfl
  · exact hown.confined.2.2 (hslash name hname)

end Session
end Millwork
