import Millwork.Repository.Directory
import Millwork.Proofs.Files
import Millwork.Proofs.Text.Lower
/-!
# The documents of a directory

A document is known by its key alone, as long as no two documents of the directory have the same key.
The file that is named by the key and the first document in the folder with that key are then the
same, and reading all documents gives for each key what reading the one document gives.
-/
namespace Millwork
namespace Document

private theorem splitExtension_eq_some_iff (name stem extension : List Char) :
    splitExtension name = some (stem, extension) ↔
      name = stem ++ '.' :: extension ∧ stem ≠ [] ∧ '.' ∉ extension := by
  have hsplit : name.reverse.takeWhile (· != '.') ++ name.reverse.dropWhile (· != '.') =
    name.reverse := List.takeWhile_append_dropWhile
  constructor
  · intro h
    unfold splitExtension at h
    dsimp only at h
    split at h
    · rename_i c rest hrest
      have hc : c = '.' := by
        have := List.head?_dropWhile_not (· != '.') name.reverse
        simpa [hrest] using this
      split at h
      · cases h
      · rename_i hne
        obtain ⟨rfl, rfl⟩ := Prod.mk.inj (Option.some.inj h)
        refine ⟨?_, by simpa using hne, ?_⟩
        · rw [hrest, hc] at hsplit
          have hname := congrArg List.reverse hsplit
          simpa using hname.symm
        · intro hm
          have hall := List.all_eq_true.1 (List.all_takeWhile (p := (· != '.')) (l := name.reverse))
          simpa using hall '.' (List.mem_reverse.1 hm)
    · cases h
  · rintro ⟨rfl, hs, he⟩
    have hr : (stem ++ '.' :: extension).reverse = extension.reverse ++ '.' :: stem.reverse := by simp
    have hall : ∀ c ∈ extension.reverse, (c != '.') = true := by
      intro c hc
      have hne : c ≠ '.' := fun h => he (h ▸ List.mem_reverse.1 hc)
      simpa using hne
    unfold splitExtension
    rw [hr, List.takeWhile_append_of_pos hall, List.dropWhile_append_of_pos hall]
    simp [hs]

/-- A document is a file whose name ends with the extension `json` in letters of any case. -/
theorem key?_file_eq_some_iff (name : String) (content : ByteArray) (key : String) :
    key? name (.file content) = some key ↔
      ∃ stem extension : String, name = stem ++ "." ++ extension ∧ stem ≠ "" ∧
        extension.toList.map Char.toLower = "json".toList ∧ RuleSet.keyOf stem = key := by
  have hpoint {extension : List Char} (h : extension.map Char.toLower = ['j', 's', 'o', 'n']) :
      '.' ∉ extension := by
    intro hm
    have hl : Char.toLower '.' ∈ ['j', 's', 'o', 'n'] := h ▸ List.mem_map_of_mem hm
    revert hl
    decide
  constructor
  · intro h
    unfold key? at h
    split at h
    · cases h
    · split at h
      · rename_i stem extension hs
        obtain ⟨hname, hne, -⟩ := (splitExtension_eq_some_iff _ _ _).1 hs
        split at h
        · rename_i hext
          refine ⟨String.ofList stem, String.ofList extension, ?_, by simpa using hne, by simpa using hext,
            Option.some.inj h⟩
          rw [← String.toList_inj, hname]
          simp
        · cases h
      · cases h
  · rintro ⟨stem, extension, rfl, hne, hext, rfl⟩
    have hs : splitExtension (stem ++ "." ++ extension).toList =
        some (stem.toList, extension.toList) := by
      rw [splitExtension_eq_some_iff]
      exact ⟨by simp, by simpa using hne, hpoint hext⟩
    have hjson : extension.toList.map Char.toLower = ['j', 's', 'o', 'n'] := hext
    simp only [key?, hs, hjson, if_true, String.ofList_toList]

private theorem key?_fileName {key : String} (hne : key ≠ "") (hl : RuleSet.keyOf key = key)
    (content : ByteArray) : key? (RuleSet.fileName key) (.file content) = some key := by
  rw [key?_file_eq_some_iff]
  exact ⟨key, "json", by rw [RuleSet.fileName, String.append_assoc]; rfl, hne, by decide, hl⟩

def document? (entry : String × Entry) : Option (String × ByteArray) :=
  (key? entry.1 entry.2).bind fun key => (content? entry.2).map (key, ·)

/-- Keys and contents of the documents of a folder, in the order of the folder. -/
def listed (folder : Folder) : List (String × ByteArray) :=
  folder.filterMap document?

/-- No two documents of the folder have the same key. -/
def Distinct (folder : Folder) : Prop :=
  ((listed folder).map Prod.fst).Nodup

private theorem document?_eq_some_iff (entry : String × Entry) (key : String) (content : ByteArray) :
    document? entry = some (key, content) ↔
      entry.2 = .file content ∧ key? entry.1 entry.2 = some key := by
  obtain ⟨name, found⟩ := entry
  cases found with
  | folder entries refusal => simp [document?, key?]
  | file bytes =>
    simp only [document?, content?, Option.map_some, Option.bind_eq_some_iff, Entry.file.injEq,
      Option.some.injEq, Prod.mk.injEq]
    constructor
    · rintro ⟨key, hk, rfl, rfl⟩
      exact ⟨rfl, hk⟩
    · rintro ⟨rfl, hk⟩
      exact ⟨key, hk, rfl, rfl⟩

theorem mem_listed (folder : Folder) (key : String) (content : ByteArray) :
    (key, content) ∈ listed folder ↔
      ∃ name, (name, .file content) ∈ folder ∧ key? name (.file content) = some key := by
  simp only [listed, List.mem_filterMap, document?_eq_some_iff]
  constructor
  · rintro ⟨⟨name, entry⟩, hm, rfl, hk⟩
    exact ⟨name, hm, hk⟩
  · rintro ⟨name, hm, hk⟩
    exact ⟨(name, .file content), hm, rfl, hk⟩

private theorem find?_bind_content? (folder : Folder) (key : String) :
    (List.find? (fun entry => key? entry.1 entry.2 == some key) folder).bind
      (fun entry => content? entry.2) = (listed folder).lookup key := by
  induction folder with
  | nil => rfl
  | cons entry folder ih =>
    cases hd : document? entry with
    | none =>
      have hk : key? entry.1 entry.2 = none := by
        obtain ⟨name, found⟩ := entry
        cases found with
        | folder entries refusal => rfl
        | file content =>
          cases hk : key? name (.file content) with
          | none => rfl
          | some key => simp [document?, content?, hk] at hd
      rw [List.find?_cons_of_neg (by simp [hk]), listed, List.filterMap_cons_none hd]
      exact ih
    | some document =>
      obtain ⟨other, content⟩ := document
      obtain ⟨hc, hk⟩ := (document?_eq_some_iff entry other content).1 hd
      rw [listed, List.filterMap_cons_some hd, List.lookup_cons]
      by_cases he : other = key
      · rw [List.find?_cons_of_pos (by simp [hk, he]), he]
        simp [hc, content?]
      · have hne : (key == other) = false := beq_false_of_ne (Ne.symm he)
        rw [List.find?_cons_of_neg (by simp [hk, he]), hne]
        exact ih

theorem lookup_eq_some_iff {folder : Folder} (hd : Distinct folder) (key : String)
    (content : ByteArray) :
    (listed folder).lookup key = some content ↔ (key, content) ∈ listed folder := by
  rw [List.lookup_eq_some_iff]
  constructor
  · rintro ⟨before, after, h, -⟩
    rw [h]
    exact List.mem_append_right before List.mem_cons_self
  · intro h
    obtain ⟨before, after, hs⟩ := List.append_of_mem h
    refine ⟨before, after, hs, ?_⟩
    intro other ho
    rw [Distinct, hs, List.map_append, List.map_cons, List.perm_middle.nodup_iff,
      List.nodup_cons] at hd
    have hne : key ≠ other.1 := by
      rintro rfl
      exact hd.1 (List.mem_append_left _ (List.mem_map.2 ⟨other, ho, rfl⟩))
    simpa using hne

/-- A document with one rule, which is for the width. -/
def ofWidth (formula : String) : ByteArray :=
  ("\x7b\"width\":[\x7b\"formula\":\"" ++ formula ++ "\"\x7d]\x7d").toUTF8

theorem getElem?_insertMany {table : List (String × RuleSet)} (hn : (table.map Prod.fst).Nodup)
    (key : String) (rules : RuleSet) :
    ((∅ : Snapshot).insertMany table)[key]? = some rules ↔ (key, rules) ∈ table := by
  have hp : table.Pairwise fun a b => ¬compare a.1 b.1 = .eq := by
    rw [List.nodup_iff_pairwise_ne, List.pairwise_map] at hn
    exact hn.imp fun {a b} hab he => hab (Std.LawfulEqCmp.eq_of_compare he)
  constructor
  · intro h
    by_cases hm : key ∈ table.map Prod.fst
    · obtain ⟨⟨_, other⟩, ho, rfl⟩ := List.mem_map.1 hm
      have hg := Std.ExtTreeMap.getElem?_insertMany_list_of_mem (t := (∅ : Snapshot))
        Std.ReflCmp.compare_self hp ho
      rw [hg] at h
      rw [← Option.some.inj h]
      exact ho
    · rw [Std.ExtTreeMap.getElem?_insertMany_list_of_contains_eq_false (by simpa using hm)] at h
      simp at h
  · intro h
    exact Std.ExtTreeMap.getElem?_insertMany_list_of_mem Std.ReflCmp.compare_self hp h

private def decoded? (document : String × ByteArray) : Option (String × RuleSet) :=
  (decode? document.2).map (document.1, ·)

private theorem load?_eq (entry : String × Entry) : load? entry = (document? entry).bind decoded? := by
  obtain ⟨name, found⟩ := entry
  cases found with
  | folder entries refusal => rfl
  | file content =>
    simp only [load?, document?, content?, Option.bind_some]
    cases key? name (.file content) with
    | none => rfl
    | some key => cases hr : decode? content <;> simp [decoded?, hr]

private theorem map_fst_decoded? (table : List (String × ByteArray)) :
    ((table.filterMap decoded?).map Prod.fst).Sublist (table.map Prod.fst) := by
  induction table with
  | nil => exact .slnil
  | cons document table ih =>
    cases hd : decode? document.2 with
    | none =>
      rw [List.filterMap_cons_none (by simp [decoded?, hd])]
      exact ih.cons _
    | some rules =>
      rw [List.filterMap_cons_some (b := (document.1, rules)) (by simp [decoded?, hd])]
      exact ih.cons_cons _

private theorem loadAll_eq (folder : Folder) :
    loadAll folder = (∅ : Snapshot).insertMany ((listed folder).filterMap decoded?) := by
  have hl : folder.filterMap load? = (listed folder).filterMap decoded? := by
    rw [listed, List.filterMap_filterMap]
    exact List.filterMap_congr fun entry _ => load?_eq entry
  rw [loadAll, hl, Std.ExtTreeMap.insertMany_list_eq_foldl]

private theorem getElem?_loadAll {folder : Folder} (hd : Distinct folder) (key : String) :
    (loadAll folder)[key]? = ((listed folder).lookup key).bind decode? := by
  apply Option.ext
  intro rules
  rw [loadAll_eq, getElem?_insertMany ((map_fst_decoded? _).nodup hd), Option.bind_eq_some_iff,
    List.mem_filterMap]
  simp only [lookup_eq_some_iff hd, decoded?, Option.map_eq_some_iff, Prod.mk.injEq]
  constructor
  · rintro ⟨⟨_, content⟩, hm, rules, hr, rfl, rfl⟩
    exact ⟨content, hm, hr⟩
  · rintro ⟨content, hm, hr⟩
    exact ⟨(key, content), hm, rules, hr, rfl, rfl⟩

end Document

namespace DirectoryRepository
/-- The documents of the directory at a path, by key; without a directory there are none. -/
def documents (path : String) (files : Files) : List (String × ByteArray) :=
  Document.listed ((files.folderAt? path).getD [])

def shownDocuments (path : String) (files : Files) : List (String × ByteArray) :=
  match files.listing path with
  | .ok folder => Document.listed folder
  | .error _ => []

/-- No two documents of the directory at the path have the same key. -/
def Distinct (path : String) (files : Files) : Prop :=
  Document.Distinct ((files.folderAt? path).getD [])

/-- The document of a key can be found now, and these are the rules in it. -/
def Readable (path : String) (files : Files) (key : String) (rules : RuleSet) : Prop :=
  ∃ content, findDocument? path files key = some content ∧ Document.decode? content = some rules

theorem loadKey?_eq_some_iff (path : String) (files : Files) (key : String) (rules : RuleSet) :
    loadKey? path files key = some rules ↔ Readable path files key rules :=
  Option.bind_eq_some_iff

theorem loadKey?_eq_none_iff (path : String) (files : Files) (key : String) :
    loadKey? path files key = none ↔ ∀ rules, ¬Readable path files key rules := by
  rw [Option.eq_none_iff_forall_ne_some]
  exact forall_congr' fun rules => not_congr (loadKey?_eq_some_iff path files key rules)

theorem shownDocuments_of_listing {path : String} {files : Files} {folder : Folder}
    (h : files.listing path = .ok folder) : shownDocuments path files = documents path files := by
  rw [documents, Files.getD_folderAt?_of_listing h, shownDocuments, h]

theorem shownDocuments_of_refused {path : String} {files : Files} {reason : String}
    (h : files.listing path = .error reason) : shownDocuments path files = [] := by
  rw [shownDocuments, h]

theorem shownDocuments_eq (path : String) (files : Files) :
    shownDocuments path files = documents path files ∨ shownDocuments path files = [] := by
  cases h : files.listing path with
  | ok folder => exact .inl (shownDocuments_of_listing h)
  | error reason => exact .inr (shownDocuments_of_refused h)

theorem Distinct.shown {path : String} {files : Files} (hd : Distinct path files) :
    ((shownDocuments path files).map Prod.fst).Nodup := by
  rcases shownDocuments_eq path files with h | h
  · rw [h]
    exact hd
  · rw [h]
    exact List.nodup_nil

theorem findDocument?_eq (path : String) (files : Files) (key : String) :
    findDocument? path files key =
      (files.fileAt? (Folder.join path (RuleSet.fileName key))).or
        ((shownDocuments path files).lookup key) := by
  rw [findDocument?, shownDocuments]
  cases files.fileAt? (Folder.join path (RuleSet.fileName key)) with
  | some content => rfl
  | none =>
    cases files.listing path with
    | error reason => rfl
    | ok folder => exact Document.find?_bind_content? folder key

theorem isPlain_fileName {key : String} (hs : '/' ∉ key.toList) :
    Folder.IsPlain (RuleSet.fileName key) := by
  have hl : (RuleSet.fileName key).toList = key.toList ++ ['.', 'j', 's', 'o', 'n'] := by
    simp [RuleSet.fileName]
  apply Folder.isPlain_of_length
  · rw [hl, List.length_append]
    exact Nat.lt_add_left _ (by decide)
  · rw [hl]
    simpa using hs

/-- The file that is named by a key is a document with this key. -/
theorem mem_documents_of_fileAt? {path key : String} (hp : path ≠ "") (hne : key ≠ "")
    (hs : '/' ∉ key.toList) (hl : RuleSet.keyOf key = key) {files : Files} {content : ByteArray}
    (h : files.fileAt? (Folder.join path (RuleSet.fileName key)) = some content) :
    (key, content) ∈ documents path files := by
  rw [Files.fileAt?_join hp (isPlain_fileName hs)] at h
  obtain ⟨folder, hf, hc⟩ := Option.bind_eq_some_iff.1 h
  rw [documents, hf, Option.getD_some, Document.mem_listed]
  refine ⟨RuleSet.fileName key, ?_, Document.key?_fileName hne hl content⟩
  unfold Folder.fileIn? Folder.contentOf? at hc
  split at hc
  · rename_i found he
    obtain ⟨⟨name, entry⟩, hfind, rfl⟩ := Option.map_eq_some_iff.1 he
    have hname : name = RuleSet.fileName key := by simpa using List.find?_some hfind
    rw [← Option.some.inj hc, ← hname]
    exact List.mem_of_find?_eq_some hfind
  · cases hc

theorem findDocument?_eq_lookup {path key : String} (hp : path ≠ "") (hne : key ≠ "")
    (hs : '/' ∉ key.toList) (hl : RuleSet.keyOf key = key) {files : Files}
    (hd : Distinct path files) {folder : Folder} (hf : files.listing path = .ok folder) :
    findDocument? path files key = (documents path files).lookup key := by
  rw [findDocument?_eq, shownDocuments_of_listing hf]
  cases h : files.fileAt? (Folder.join path (RuleSet.fileName key)) with
  | none => rfl
  | some content =>
    have hm := mem_documents_of_fileAt? hp hne hs hl h
    exact ((Document.lookup_eq_some_iff hd key content).2 hm).symm

theorem reload_eager {repository : DirectoryRepository} (he : repository.strategy = .eager)
    {files : Files} {folder : Folder} (hf : files.listing repository.path = .ok folder) :
    repository.reload files = .ok { repository with snapshot := Document.loadAll folder } := by
  simp only [reload, he, hf]
  rfl

theorem reload_refused {repository : DirectoryRepository} (he : repository.strategy = .eager)
    {files : Files} {reason : String} (hf : files.listing repository.path = .error reason) :
    repository.reload files = .error ⟨repository.path, reason⟩ := by
  simp only [reload, he, hf]
  rfl

theorem reload_lazy {repository : DirectoryRepository} (hl : repository.strategy = .lazy)
    (files : Files) :
    repository.reload files = .ok { repository with
      snapshot := reloadKeys repository.path files repository.snapshot.keys } := by
  simp only [reload, hl]

theorem getElem?_loadAll_listing {path : String} {files : Files} (hd : Distinct path files)
    {folder : Folder} (hf : files.listing path = .ok folder) (key : String) :
    (Document.loadAll folder)[key]? = ((documents path files).lookup key).bind Document.decode? := by
  have hfolder := Files.getD_folderAt?_of_listing hf
  have hdistinct : Document.Distinct folder := by
    rw [← hfolder]
    exact hd
  rw [Document.getElem?_loadAll hdistinct, documents, hfolder]

end DirectoryRepository
end Millwork
