import Millwork.Files
/-!
# Paths below a folder

A name below a path leads to what the folder at the path has under that name; without a folder at the
path it leads nowhere. A name below the empty path is looked up where relative paths start.
-/
namespace Millwork
namespace Folder
private theorem segments_ne_nil (s : List Char) : segments s ≠ [] := by
  cases s with
  | nil => exact List.cons_ne_nil _ _
  | cons c s =>
    rw [segments]
    split
    · exact List.cons_ne_nil _ _
    · split <;> exact List.cons_ne_nil _ _

private theorem segments_append_slash (a b : List Char) :
    segments (a ++ '/' :: b) = segments a ++ segments b := by
  induction a with
  | nil => rfl
  | cons c a ih =>
    rw [List.cons_append, segments, segments, ih]
    split
    · rfl
    · obtain ⟨name, more, hs⟩ := List.exists_cons_of_ne_nil (segments_ne_nil a)
      rw [hs]
      rfl

private theorem segments_of_not_mem {s : List Char} (h : '/' ∉ s) : segments s = [s] := by
  induction s with
  | nil => rfl
  | cons c s ih =>
    obtain ⟨hc, hs⟩ : '/' ≠ c ∧ '/' ∉ s := by simpa using h
    rw [segments, if_neg (Ne.symm hc), ih hs]

private theorem names_append_slash (path name : String) :
    names (path ++ "/" ++ name) = names path ++ names name := by
  have hs : (path ++ "/" ++ name).toList = path.toList ++ '/' :: name.toList := by simp
  rw [names, hs, segments_append_slash, List.map_append, names, names]

theorem names_of_not_mem {name : String} (h : '/' ∉ name.toList) : names name = [name] := by
  rw [names, segments_of_not_mem h, List.map_singleton, String.ofList_toList]

/-- A name that stands for an entry, neither for the folder itself nor for the one around it. -/
def IsPlain (name : String) : Prop :=
  name ≠ "" ∧ name ≠ "." ∧ name ≠ ".." ∧ '/' ∉ name.toList

theorem isPlain_of_length {name : String} (h : 2 < name.toList.length) (hs : '/' ∉ name.toList) :
    IsPlain name := by
  have hlong (other : String) (he : name = other) : 2 < other.toList.length := he ▸ h
  refine ⟨fun he => ?_, fun he => ?_, fun he => ?_, hs⟩
  · exact absurd (hlong _ he) (by decide)
  · exact absurd (hlong _ he) (by decide)
  · exact absurd (hlong _ he) (by decide)

private theorem IsPlain.head?_ne {name : String} (h : IsPlain name) :
    name.toList.head? ≠ some '/' :=
  fun hs => h.2.2.2 (List.mem_of_head? hs)

private theorem names_join {path name : String} (hp : path ≠ "") (hn : IsPlain name) :
    ∃ more front, join path name = path ++ more ∧ names (path ++ more) = front ++ [name] ∧
      (names path = front ∨ names path = front ++ [""]) := by
  have hlast : names name = [name] := names_of_not_mem hn.2.2.2
  simp only [join, hp, hn.head?_ne, decide_false, Bool.or_self, Bool.false_eq_true, if_false]
  split
  · rename_i hend
    obtain ⟨before, hb⟩ := List.getLast?_eq_some_iff.1 hend
    have hpath : path = String.ofList before ++ "/" := by
      rw [← String.toList_inj, hb]
      simp
    refine ⟨name, names (String.ofList before), rfl, ?_, .inr ?_⟩
    · rw [hpath, names_append_slash, hlast]
    · have h := names_append_slash (String.ofList before) ""
      rwa [String.append_empty, ← hpath] at h
  · refine ⟨"/" ++ name, names path, String.append_assoc .., ?_, .inl rfl⟩
    rw [← String.append_assoc, names_append_slash, hlast]

def contentOf? : Option Entry → Option ByteArray
  | some (.file content) => some content
  | _ => none

def fileIn? (folder : Folder) (name : String) : Option ByteArray :=
  contentOf? <| folder.entry? name

end Folder

namespace Entry
open Folder (IsPlain)

private def entriesOf? : Option Entry → Option Folder
  | some (.folder entries _) => some entries
  | _ => none

/-- Two endings of a path that agree in every place, up to what is looked at, agree behind every path. -/
private theorem follow?_append_congr {α : Type} {f g : Option Entry → α} {a b : List String}
    (hnone : f none = g none)
    (hends : ∀ above here, f (follow? above here a) = g (follow? above here b))
    (path : List String) (above : List Entry) (here : Entry) :
    f (follow? above here (path ++ a)) = g (follow? above here (path ++ b)) := by
  induction path generalizing above here with
  | nil => exact hends above here
  | cons first path ih =>
    cases here with
    | file content => exact hnone
    | folder entries refusal =>
      simp only [List.cons_append, follow?]
      split
      · exact ih above _
      · split
        · cases above with
          | nil => exact ih [] _
          | cons outer more => exact ih more outer
        · cases Folder.entry? entries first with
          | none => exact hnone
          | some inner => exact ih _ inner

private theorem follow?_concat {name : String} (h : IsPlain name) (above : List Entry) (here : Entry)
    (path : List String) :
    follow? above here (path ++ [name]) =
      (entriesOf? (follow? above here path)).bind fun inner => inner.entry? name := by
  have hlast (above : List Entry) (here : Entry) : id (follow? above here [name]) =
      (entriesOf? (follow? above here [])).bind fun inner => inner.entry? name := by
    cases here with
    | file content => rfl
    | folder entries refusal =>
      simp only [follow?, h.1, h.2.1, h.2.2.1, decide_false, Bool.or_self, Bool.false_eq_true, if_false,
        entriesOf?, Option.bind_some]
      cases Folder.entry? entries name <;> rfl
  have hpath := follow?_append_congr (f := id)
    (g := fun found => (entriesOf? found).bind fun inner => inner.entry? name) rfl hlast path above here
  rwa [List.append_nil] at hpath

private theorem entriesOf?_follow?_concat {name : String} (h : name = "" ∨ name = ".")
    (above : List Entry) (here : Entry) (path : List String) :
    entriesOf? (follow? above here (path ++ [name])) = entriesOf? (follow? above here path) := by
  have hlast (above : List Entry) (here : Entry) :
      entriesOf? (follow? above here [name]) = entriesOf? (follow? above here []) := by
    cases here with
    | file content => rfl
    | folder entries refusal => simp [follow?, h]
  have hpath := follow?_append_congr rfl hlast path above here
  rwa [List.append_nil] at hpath

end Entry

namespace Files
open Folder (IsPlain)

private theorem folderAt?_eq (files : Files) (path : String) :
    files.folderAt? path = Entry.entriesOf? (files.entryAt? path) := by
  unfold folderAt? Entry.entriesOf?
  rfl

private theorem fileAt?_eq (files : Files) (path : String) :
    files.fileAt? path = Folder.contentOf? (files.entryAt? path) := by
  unfold fileAt? Folder.contentOf?
  rfl

private theorem trail_append {path : String} (hp : path ≠ "") (more : String) (files : Files) :
    files.trail (path ++ more) =
      (if path.toList.head? = some '/' then [] else files.start) ++ Folder.names (path ++ more) := by
  obtain ⟨c, rest, hc⟩ := List.exists_cons_of_ne_nil (mt String.toList_eq_nil_iff.1 hp)
  rw [trail, String.toList_append, hc, List.cons_append, List.head?_cons, List.head?_cons]
  by_cases hs : some c = some '/'
  · rw [if_pos hs, if_pos hs, List.nil_append]
  · rw [if_neg hs, if_neg hs]

theorem fileAt?_join {path name : String} (hp : path ≠ "") (hn : IsPlain name) (files : Files) :
    files.fileAt? (Folder.join path name) = (files.folderAt? path).bind (·.fileIn? name) := by
  obtain ⟨more, front, hjoin, hnames, hfront⟩ := Folder.names_join hp hn
  have hne : path ++ more ≠ "" := by simp [hp]
  have htrail := trail_append hp "" files
  rw [String.append_empty] at htrail
  rw [fileAt?_eq, folderAt?_eq, hjoin, entryAt?, entryAt?, if_neg hne, if_neg hp, trail_append hp,
    hnames, ← List.append_assoc, Entry.follow?_concat hn, htrail]
  have hfolder : Entry.entriesOf? (Entry.follow? [] (.folder files.root files.rootRefusal)
      ((if path.toList.head? = some '/' then [] else files.start) ++ Folder.names path)) =
      Entry.entriesOf? (Entry.follow? [] (.folder files.root files.rootRefusal)
        ((if path.toList.head? = some '/' then [] else files.start) ++ front)) := by
    rcases hfront with h | h
    · rw [h]
    · rw [h, ← List.append_assoc, Entry.entriesOf?_follow?_concat (.inl rfl)]
  rw [hfolder]
  cases Entry.entriesOf? _ <;> rfl

theorem fileAt?_join_empty {name : String} (hn : IsPlain name) (files : Files) :
    files.fileAt? (Folder.join "" name) = (files.folderAt? ".").bind (·.fileIn? name) := by
  have hjoin : Folder.join "" name = name := by simp [Folder.join]
  have hname : files.trail name = files.start ++ [name] := by
    rw [trail, if_neg hn.head?_ne, Folder.names_of_not_mem hn.2.2.2]
  have hpoint : files.trail "." = files.start ++ ["."] := rfl
  rw [hjoin, fileAt?_eq, folderAt?_eq, entryAt?, entryAt?, if_neg hn.1, if_neg (by decide), hname,
    hpoint, Entry.follow?_concat hn, Entry.entriesOf?_follow?_concat (.inr rfl)]
  cases Entry.entriesOf? _ <;> rfl

theorem getD_folderAt?_of_listing {files : Files} {path : String} {folder : Folder}
    (h : files.listing path = .ok folder) : (files.folderAt? path).getD [] = folder := by
  unfold listing at h
  rw [folderAt?_eq]
  split at h
  · rename_i he
    rw [he]
    exact Except.ok.inj h
  · cases h
  · rename_i hfolder hrefused
    cases h
    cases he : files.entryAt? path with
    | none => rfl
    | some entry =>
      cases entry with
      | file content => rfl
      | folder entries refusal =>
        cases refusal with
        | none => exact absurd he (hfolder entries)
        | some reason => exact absurd he (hrefused entries reason)

theorem listing_empty (files : Files) : files.listing "" = .ok [] := rfl

end Files
end Millwork
