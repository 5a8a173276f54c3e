import Millwork.Proofs.Repository.Key
import Millwork.Proofs.Repository.Refreshing
/-!
# Both strategies

Whether the documents are read when a directory is opened or when they are first asked for, the rules
for a name are those of the one document whose key is the name in small letters. It takes a directory
that can be listed, and at the empty path, which leads to no directory, a lazy repository still finds the
files that are where relative paths start.
-/
namespace Millwork

namespace DirectoryRepository
/-- The directory at the path has a file with this content that is named by a stem, a point and `json`
in letters of any case, and the key is the stem in small letters. -/
def HasDocument (path : String) (files : Files) (key : String) (content : ByteArray) : Prop :=
  ∃ folder stem extension, files.folderAt? path = some folder ∧
    (stem ++ "." ++ extension, .file content) ∈ folder ∧ stem ≠ "" ∧
    extension.toList.map Char.toLower = "json".toList ∧ RuleSet.keyOf stem = key

theorem mem_documents_iff (path : String) (files : Files) (key : String) (content : ByteArray) :
    (key, content) ∈ documents path files ↔ HasDocument path files key content := by
  rw [documents, Document.mem_listed]
  cases hf : files.folderAt? path with
  | none => simp [HasDocument, hf]
  | some folder =>
    simp only [Option.getD_some, Document.key?_file_eq_some_iff, HasDocument, hf, Option.some.injEq]
    constructor
    · rintro ⟨_, hm, stem, extension, rfl, hne, hext, hk⟩
      exact ⟨folder, stem, extension, rfl, hm, hne, hext, hk⟩
    · rintro ⟨_, stem, extension, rfl, hm, hne, hext, hk⟩
      exact ⟨_, hm, stem, extension, rfl, hne, hext, hk⟩

private theorem HasDocument.unique {path : String} {files : Files} (hd : Distinct path files)
    {key : String} {content other : ByteArray} (h : HasDocument path files key content)
    (ho : HasDocument path files key other) : content = other := by
  have hl := (Document.lookup_eq_some_iff hd key content).2 ((mem_documents_iff ..).2 h)
  have hlo := (Document.lookup_eq_some_iff hd key other).2 ((mem_documents_iff ..).2 ho)
  exact Option.some.inj (hl.symm.trans hlo)

/-- What is answered comes from the documents, not only from the file that is named by the key. -/
def ByDocuments (strategy : Strategy) (path : String) (files : Files) : Prop :=
  strategy = .eager ∨ path ≠ "" ∧ ∃ folder, files.listing path = .ok folder

/-- The rules in the file that the directory at a path has for a key, by the very name for the key. -/
def namedRules? (path : String) (files : Files) (key : String) : Option RuleSet :=
  ((files.folderAt? path).bind (·.fileIn? (RuleSet.fileName key))).bind Document.decode?

section
variable {path name : String} {files : Files}

private theorem current?_eq_some_iff {strategy : Strategy} (h : ByDocuments strategy path files)
    (hd : Distinct path files) (hne : name ≠ "") (hs : '/' ∉ name.toList) (rules : RuleSet) :
    current? strategy path files (RuleSet.keyOf name) = some rules ↔
      ∃ content, HasDocument path files (RuleSet.keyOf name) content ∧
        Document.decode? content = some rules := by
  have hlookup : current? strategy path files (RuleSet.keyOf name) =
      ((documents path files).lookup (RuleSet.keyOf name)).bind Document.decode? := by
    cases strategy with
    | eager => rfl
    | lazy =>
      rcases h with he | ⟨hp, folder, hf⟩
      · cases he
      · rw [current?, loadKey?, findDocument?_eq_lookup hp
          (mt (RuleSet.keyOf_eq_empty_iff name).1 hne) (mt (RuleSet.slash_mem_keyOf_iff name).1 hs)
          (RuleSet.keyOf_keyOf name) hd hf]
  rw [hlookup, Option.bind_eq_some_iff]
  refine exists_congr fun content => and_congr_left fun _ => ?_
  exact (Document.lookup_eq_some_iff hd _ _).trans (mem_documents_iff ..)

private theorem current?_empty_path (hs : '/' ∉ name.toList) :
    current? .lazy "" files (RuleSet.keyOf name) = namedRules? "." files (RuleSet.keyOf name) := by
  have hplain := isPlain_fileName (mt (RuleSet.slash_mem_keyOf_iff name).1 hs)
  have hnone : shownDocuments "" files = [] := shownDocuments_of_listing (Files.listing_empty files)
  rw [current?, loadKey?, findDocument?_eq, hnone, Files.fileAt?_join_empty hplain, List.lookup_nil,
    Option.or_none, namedRules?]

private theorem current?_refused (hp : path ≠ "") (hs : '/' ∉ name.toList) {reason : String}
    (h : files.listing path = .error reason) :
    current? .lazy path files (RuleSet.keyOf name) = namedRules? path files (RuleSet.keyOf name) := by
  have hplain := isPlain_fileName (mt (RuleSet.slash_mem_keyOf_iff name).1 hs)
  rw [current?, loadKey?, findDocument?_eq, shownDocuments_of_refused h, Files.fileAt?_join hp hplain,
    List.lookup_nil, Option.or_none, namedRules?]

end

private theorem not_hasDocument_empty_path (files : Files) (key : String) (content : ByteArray) :
    ¬HasDocument "" files key content := by
  rintro ⟨folder, stem, extension, hf, -⟩
  cases hf

end DirectoryRepository

namespace Session
open DirectoryRepository (Distinct HasDocument ByDocuments namedRules? current? opened)

/-- A repository that is asked for names one after another. -/
def asking (files : Files) (repository : DirectoryRepository) (names : List String) : Session :=
  run ⟨files, repository⟩ (names.map .resolve)

private theorem run_resolves (names : List String) {session : Session}
    (hd : Distinct session.repository.path session.files)
    (hu : session.repository.UpToDate session.files) :
    let after := session.run (names.map .resolve)
    after.files = session.files ∧ after.repository.path = session.repository.path ∧
      after.repository.strategy = session.repository.strategy ∧
      after.repository.UpToDate session.files := by
  induction names generalizing session with
  | nil => exact ⟨rfl, rfl, rfl, hu⟩
  | cons name names ih =>
    have hnext : (session.step (.resolve name)).2.repository.Extends session.repository :=
      step_extends rfl session
    have hdnext : Distinct (session.step (.resolve name)).2.repository.path session.files := by
      rwa [hnext.path]
    have hrest := ih hdnext (hu.resolve hd (.refl _ _) name).2
    exact ⟨hrest.1, hrest.2.1.trans hnext.path, hrest.2.2.1.trans hnext.strategy, hrest.2.2.2⟩

private theorem answer_asking {path : String} {strategy : Strategy} {files : Files}
    {repository : DirectoryRepository} (ho : opened path strategy files = .ok repository)
    (hd : Distinct path files) (earlier : List String) (name : String) :
    ((asking files repository earlier).step (.resolve name)).1 =
      .rules ((current? strategy path files (RuleSet.keyOf name)).getD .empty) := by
  obtain ⟨hpath, hstrategy⟩ := DirectoryRepository.opened_directory ho
  have hdopened : Distinct repository.path files := by rwa [hpath]
  obtain ⟨hfiles, hp, hs, hu⟩ := @run_resolves earlier ⟨files, repository⟩ hdopened
    (DirectoryRepository.upToDate_opened ho hd)
  have hp := hp.trans hpath
  have hs := hs.trans hstrategy
  have hanswer := (hu.resolve (by rwa [hp]) (.refl _ _) name).1
  rw [hp, hs] at hanswer
  rw [← hanswer, asking, step_of_asked rfl, hfiles]
  rfl

/-- A directory can be opened unless all is to be read now and it cannot be listed. Then both strategies
give the rules of the one document whose key is the name in small letters, whatever names were asked for
before, and no rules if there is none or it cannot be decoded, and no other entry of the directory has a
part in it; only a lazy repository may have to do with the file that is named by the key, if the directory
cannot be listed, or at the empty path. There it finds that file where relative paths start, although no
directory at all is a directory without documents. -/
theorem answer_resolve {path : String} {files : Files} (hd : Distinct path files) {name : String}
    (hne : name ≠ "") (hs : '/' ∉ name.toList) (strategy : Strategy) (earlier : List String) :
    let isDocument := HasDocument path files (RuleSet.keyOf name)
    (∀ content other, isDocument content → isDocument other → content = other) ∧
    (∀ failure, opened path strategy files = .error failure ↔ strategy = .eager ∧
      ∃ reason, files.listing path = .error reason ∧ failure = ⟨path, reason⟩) ∧
    ∀ repository, opened path strategy files = .ok repository →
      let answer := ((asking files repository earlier).step (.resolve name)).1
      (ByDocuments strategy path files →
        (∀ content rules, isDocument content → Document.decode? content = some rules →
          answer = .rules rules) ∧
        ((∀ content, isDocument content → Document.decode? content = none) →
          answer = .rules .empty) ∧
        ∀ others strategy' repository' earlier', Distinct path others →
          opened path strategy' others = .ok repository' → ByDocuments strategy' path others →
          (∀ content, Document.decode? content ≠ none →
            (HasDocument path others (RuleSet.keyOf name) content ↔ isDocument content)) →
          ((asking others repository' earlier').step (.resolve name)).1 = answer) ∧
      (strategy = .lazy → path ≠ "" → (∃ reason, files.listing path = .error reason) →
        answer = .rules ((namedRules? path files (RuleSet.keyOf name)).getD .empty)) ∧
      (strategy = .lazy → path = "" → (∀ content, ¬isDocument content) ∧
        answer = .rules ((namedRules? "." files (RuleSet.keyOf name)).getD .empty)) := by
  intro isDocument
  refine ⟨fun _ _ => DirectoryRepository.HasDocument.unique hd,
    DirectoryRepository.opened_eq_error_iff path strategy files, fun repository ho => ?_⟩
  intro answer
  have ha : answer = .rules ((current? strategy path files (RuleSet.keyOf name)).getD .empty) :=
    answer_asking ho hd earlier name
  refine ⟨fun hb => ?_, ?_, ?_⟩
  · have hcurrent := DirectoryRepository.current?_eq_some_iff hb hd hne hs
    refine ⟨?_, ?_, ?_⟩
    · intro content rules hc hr
      rw [ha, (hcurrent rules).2 ⟨content, hc, hr⟩, Option.getD_some]
    · intro hn
      have hnone : current? strategy path files (RuleSet.keyOf name) = none := by
        rw [Option.eq_none_iff_forall_ne_some]
        intro rules h
        obtain ⟨content, hc, hr⟩ := (hcurrent rules).1 h
        rw [hn content hc] at hr
        cases hr
      rw [ha, hnone, Option.getD_none]
    · intro others strategy' repository' earlier' hd' ho' hb' hsame
      have hboth : current? strategy' path others (RuleSet.keyOf name) =
          current? strategy path files (RuleSet.keyOf name) := by
        apply Option.ext
        intro rules
        rw [hcurrent, DirectoryRepository.current?_eq_some_iff hb' hd' hne hs]
        refine exists_congr fun content => and_congr_left fun hr => ?_
        exact hsame content (by rw [hr]; exact Option.some_ne_none rules)
      rw [ha, answer_asking ho' hd', hboth]
  · rintro rfl hp ⟨reason, hr⟩
    rw [ha, DirectoryRepository.current?_refused hp hs hr]
  · rintro rfl rfl
    refine ⟨DirectoryRepository.not_hasDocument_empty_path files _, ?_⟩
    rw [ha, DirectoryRepository.current?_empty_path hs]

/-- A document with capital letters in its name, among entries that are no documents or cannot be
decoded. -/
theorem answer_resolve_doors :
    let files : Files := { root := [("r", .folder [("doors.json", .folder []),
      ("doors.txt", .file (Document.ofWidth "3")), ("frames.json", .file "no rules".toUTF8),
      ("Doors.JSON", .file (Document.ofWidth "5"))])] }
    Distinct "r" files ∧ ∃ rules, (rules.get .width).map (·.formula) = ["5"] ∧
      ∀ strategy, ∃ repository, opened "r" strategy files = .ok repository ∧
        ((asking files repository ["frames", "doors"]).step (.resolve "DOORS")).1 = .rules rules := by
  intro files
  have hd : Distinct "r" files := by
    unfold Distinct Document.Distinct
    decide +kernel
  have hread : (Document.decode? (Document.ofWidth "5")).map
      (fun rules => (rules.get .width).map (·.formula)) = some ["5"] := by
    decide +kernel
  obtain ⟨rules, hr, hw⟩ := Option.map_eq_some_iff.1 hread
  have hdocument : HasDocument "r" files (RuleSet.keyOf "DOORS") (Document.ofWidth "5") :=
    ⟨_, "Doors", "JSON", rfl, by simp, by decide, by decide, by decide +kernel⟩
  refine ⟨hd, rules, hw, fun strategy => ?_⟩
  have hopened : ∃ repository, opened "r" strategy files = .ok repository :=
    DirectoryRepository.exists_opened fun _ => ⟨_, rfl⟩
  have hne : "DOORS" ≠ "" := by decide
  obtain ⟨repository, ho⟩ := hopened
  have hanswers := (answer_resolve hd hne (by decide) strategy ["frames", "doors"]).2.2 _ ho
  exact ⟨repository, ho, (hanswers.1 (.inr ⟨by decide, _, rfl⟩)).1 _ rules hdocument hr⟩

/-- At the empty path the strategies answer differently: a document where relative paths start is none
of the directory, and yet the lazy repository gives its rules. -/
theorem answer_empty_path :
    let files : Files := { root := [("doors.json", .file (Document.ofWidth "5"))] }
    Distinct "" files ∧ (∀ content, ¬HasDocument "" files (RuleSet.keyOf "doors") content) ∧
      ∃ eager lazy, opened "" .eager files = .ok eager ∧ opened "" .lazy files = .ok lazy ∧
        ((asking files eager []).step (.resolve "doors")).1 = .rules .empty ∧
        ∃ rules, rules ≠ .empty ∧
          ((asking files lazy []).step (.resolve "doors")).1 = .rules rules := by
  intro files
  have hd : Distinct "" files := List.nodup_nil
  have hnone := DirectoryRepository.not_hasDocument_empty_path files (RuleSet.keyOf "doors")
  have hread : (namedRules? "." files (RuleSet.keyOf "doors")).map
      (fun rules => (rules.get .width).map (·.formula)) = some ["5"] := by
    decide +kernel
  obtain ⟨rules, hr, hw⟩ := Option.map_eq_some_iff.1 hread
  have hopened (strategy : Strategy) : ∃ repository, opened "" strategy files = .ok repository :=
    DirectoryRepository.exists_opened fun _ => ⟨_, Files.listing_empty files⟩
  obtain ⟨eager, he⟩ := hopened .eager
  obtain ⟨lazy, hl⟩ := hopened .lazy
  refine ⟨hd, hnone, eager, lazy, he, hl, ?_, rules, ?_, ?_⟩
  · have hempty : current? .eager "" files (RuleSet.keyOf "doors") = none := rfl
    rw [answer_asking he hd, hempty, Option.getD_none]
  · rintro rfl
    exact absurd hw (by decide)
  · rw [answer_asking hl hd, DirectoryRepository.current?_empty_path (by decide), hr, Option.getD_some]

end Session
end Millwork
