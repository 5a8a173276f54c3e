/-!
# Quoted text

How a text is written between quotation marks and how it is read back. A written text may also hold
code units of surrogate pairs, each as an escape; two that belong together stand for one character,
and any other makes the text invalid.
-/
namespace Millwork.Json
def escape? (c : Char) : Option (List Char) :=
  match c with
  | '"' => some ['\\', '"']
  | '\\' => some ['\\', '\\']
  | '\x08' => some ['\\', 'b']
  | '\t' => some ['\\', 't']
  | '\n' => some ['\\', 'n']
  | '\x0c' => some ['\\', 'f']
  | '\r' => some ['\\', 'r']
  | c =>
    if c < ' ' then
      some ['\\', 'u', '0', '0', Nat.digitChar (c.toNat / 16), Nat.digitChar (c.toNat % 16)]
    else
      none

def quote (s : List Char) : List Char :=
  '"' :: (s.flatMap fun c => (escape? c).getD [c]) ++ ['"']

/-- A written text is made of characters and of code units of surrogate pairs. -/
inductive Piece
  | char (c : Char)
  | surrogate (unit : Nat)
deriving DecidableEq, Repr

/-- What stands between two quotation marks. -/
abbrev Quoted := List Piece

/-- The character for which a backslash and this one stand. -/
def escaped? : Char → Option Char
  | '"' => some '"'
  | '\\' => some '\\'
  | '/' => some '/'
  | 'b' => some '\x08'
  | 'f' => some '\x0c'
  | 'n' => some '\n'
  | 'r' => some '\r'
  | 't' => some '\t'
  | _ => none

def hexDigit? (c : Char) : Option Nat :=
  if c.isDigit then some (c.toNat - '0'.toNat)
  else if 'a' ≤ c && c ≤ 'f' then some (c.toNat - 'a'.toNat + 10)
  else if 'A' ≤ c && c ≤ 'F' then some (c.toNat - 'A'.toNat + 10)
  else none

def Piece.ofHex? (a b c d : Char) : Option Piece := do
  let unit := (((← hexDigit? a) * 16 + (← hexDigit? b)) * 16 + (← hexDigit? c)) * 16 + (← hexDigit? d)
  return if 0xD800 ≤ unit && unit ≤ 0xDFFF then .surrogate unit else .char (Char.ofNat unit)

/-- Reads up to the closing quotation mark, the opening one being read already. -/
def Quoted.read? : List Char → Option (Quoted × List Char)
  | [] => none
  | '"' :: rest => some ([], rest)
  | '\\' :: 'u' :: a :: b :: c :: d :: rest =>
    match Piece.ofHex? a b c d, Quoted.read? rest with
    | some piece, some (pieces, after) => some (piece :: pieces, after)
    | _, _ => none
  | '\\' :: e :: rest =>
    match escaped? e, Quoted.read? rest with
    | some c, some (pieces, after) => some (.char c :: pieces, after)
    | _, _ => none
  | c :: rest =>
    if c < ' ' then
      none
    else
      (Quoted.read? rest).map fun (pieces, after) => (.char c :: pieces, after)

theorem Quoted.read?_shorter {s : List Char} {pieces : Quoted} {rest : List Char}
    (h : Quoted.read? s = some (pieces, rest)) : rest.length < s.length := by
  fun_induction Quoted.read? s generalizing pieces rest with
  | case1 => simp at h
  | case2 => simp_all
  | case3 _ _ _ _ _ _ _ _ _ hr ih => simp_all; omega
  | case4 => simp at h
  | case5 _ _ _ _ _ _ _ hr ih => simp_all; omega
  | case6 => simp at h
  | case7 => simp at h
  | case8 _ _ _ _ _ _ ih =>
    obtain ⟨found, hf, he⟩ := Option.map_eq_some_iff.1 h
    simp only [Prod.mk.injEq] at he
    obtain ⟨_, rfl⟩ := he
    have := ih hf
    simp only [List.length_cons]
    omega

def Piece.pair? (leading trailing : Nat) : Option Char :=
  if leading < 0xDC00 && 0xDC00 ≤ trailing then
    some (Char.ofNat (0x10000 + (leading - 0xD800) * 0x400 + (trailing - 0xDC00)))
  else
    none

def Quoted.text? : Quoted → Option (List Char)
  | [] => some []
  | .char c :: rest => (Quoted.text? rest).map (c :: ·)
  | .surrogate leading :: .surrogate trailing :: rest =>
    match Piece.pair? leading trailing, Quoted.text? rest with
    | some c, some text => some (c :: text)
    | _, _ => none
  | .surrogate _ :: _ => none

def Quoted.string? (quoted : Quoted) : Option String :=
  quoted.text?.map String.ofList

end Millwork.Json
