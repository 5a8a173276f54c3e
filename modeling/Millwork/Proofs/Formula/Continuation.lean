import Millwork.Proofs.Formula.Reading
/-!
# How a formula may go on

Here a call may have any number of arguments, and a formula any number of tokens. Each state of the
reader then stands for a set of texts, those that make a formula of what has been read
(`State.Continues`). A token that can be read takes the first lexeme off these texts; where a token is
refused, none of them begins with it (`State.step_reads`). There is always such a text, so what is read
without an error is the front part of a formula.
-/
namespace Millwork.Formula
/-- Some function has this name. -/
def Function.IsName (text : String) : Prop :=
  ∃ function : Function, function.name = text

private theorem Function.isSome_ofName?_iff (text : String) : (ofName? text).isSome ↔ IsName text := by
  have hall (function : Function) : function ∈ all := by
    cases function <;> decide
  simp only [ofName?, List.find?_isSome, beq_iff_eq, IsName]
  exact ⟨fun ⟨function, _, hn⟩ => ⟨function, hn⟩, fun ⟨function, hn⟩ => ⟨function, hall function, hn⟩⟩

/-- Whether the phrase calls functions only and has no path through more than `limit` parentheses, signs
and calls. -/
def Phrase.Within {c : Category} (d : Phrase c) (limit : Nat) : Prop :=
  d.EveryCall (fun text _ => Function.IsName text) ∧ d.depth ≤ limit

def Lexeme.Then (lexeme : Lexeme) (Rest : List Lexeme → Prop) (ls : List Lexeme) : Prop :=
  ∃ rest, ls = lexeme :: rest ∧ Rest rest

private theorem Lexeme.then_cons {lexeme first : Lexeme} {Rest : List Lexeme → Prop}
    {ls : List Lexeme} :
    lexeme.Then Rest (first :: ls) ↔ first = lexeme ∧ Rest ls := by
  constructor
  · rintro ⟨rest, he, hr⟩
    obtain ⟨rfl, rfl⟩ := List.cons.inj he
    exact ⟨rfl, hr⟩
  · rintro ⟨rfl, hr⟩
    exact ⟨ls, rfl, hr⟩

private theorem Lexeme.not_then_nil {lexeme : Lexeme} {Rest : List Lexeme → Prop} :
    ¬lexeme.Then Rest [] := by
  rintro ⟨rest, he, -⟩
  cases he

def Deeper (limit : Nat) (P : Nat → List Lexeme → Prop) (ls : List Lexeme) : Prop :=
  ∃ room, limit = room + 1 ∧ P room ls

def Category.Leads (c : Category) (limit : Nat) (Rest : List Lexeme → Prop) (ls : List Lexeme) : Prop :=
  ∃ (d : Phrase c) (rest : List Lexeme), ls = d.lexemes ++ rest ∧ d.Within limit ∧ Rest rest

namespace Category
variable {limit : Nat} {Rest : List Lexeme → Prop} {ls : List Lexeme}

private theorem leads_leads {c c' : Category} : c.Leads limit (c'.Leads limit Rest) ls ↔
    ∃ (first : Phrase c) (more : Phrase c') (rest : List Lexeme),
      ls = first.lexemes ++ more.lexemes ++ rest ∧
      ((first.EveryCall (fun text _ => Function.IsName text) ∧
        more.EveryCall (fun text _ => Function.IsName text)) ∧
          max first.depth more.depth ≤ limit) ∧ Rest rest := by
  constructor
  · rintro ⟨first, _, rfl, ⟨hc, hd⟩, more, rest, rfl, ⟨hc', hd'⟩, hr⟩
    exact ⟨first, more, rest, (List.append_assoc ..).symm, ⟨⟨hc, hc'⟩, Nat.max_le.2 ⟨hd, hd'⟩⟩, hr⟩
  · rintro ⟨first, more, rest, rfl, ⟨⟨hc, hc'⟩, hd⟩, hr⟩
    exact ⟨first, _, List.append_assoc .., ⟨hc, (Nat.max_le.1 hd).1⟩, more, rest, rfl,
      ⟨hc', (Nat.max_le.1 hd).2⟩, hr⟩

private theorem leads_product :
    product.Leads limit Rest = signed.Leads limit (factors.Leads limit Rest) := by
  funext ls
  rw [eq_iff_iff, leads_leads]
  constructor
  · rintro ⟨d, rest, he, hw, hr⟩
    cases d with
    | product first more => exact ⟨first, more, rest, he, hw, hr⟩
  · rintro ⟨first, more, rest, he, hw, hr⟩
    exact ⟨.product first more, rest, he, hw, hr⟩

private theorem leads_sum : sum.Leads limit Rest =
    signed.Leads limit (factors.Leads limit (addends.Leads limit Rest)) := by
  funext ls
  rw [eq_iff_iff, ← leads_product, leads_leads]
  constructor
  · rintro ⟨d, rest, he, hw, hr⟩
    cases d with
    | sum first more => exact ⟨first, more, rest, he, hw, hr⟩
  · rintro ⟨first, more, rest, he, hw, hr⟩
    exact ⟨.sum first more, rest, he, hw, hr⟩

private theorem leads_factors : factors.Leads limit Rest ls ↔
    Rest ls ∨ ∃ scaling : Scaling,
      scaling.lexeme.Then (signed.Leads limit (factors.Leads limit Rest)) ls := by
  simp only [Lexeme.Then, leads_leads]
  constructor
  · rintro ⟨d, rest, rfl, hw, hr⟩
    cases d with
    | noFactor => exact .inl hr
    | factor scaling first more => exact .inr ⟨scaling, _, rfl, first, more, rest, rfl, hw, hr⟩
  · rintro (hr | ⟨scaling, _, rfl, first, more, rest, rfl, hw, hr⟩)
    · exact ⟨.noFactor, ls, rfl, ⟨trivial, Nat.zero_le _⟩, hr⟩
    · exact ⟨.factor scaling first more, rest, rfl, hw, hr⟩

private theorem leads_addends : addends.Leads limit Rest ls ↔
    Rest ls ∨ ∃ sign : Sign,
      sign.lexeme.Then (product.Leads limit (addends.Leads limit Rest)) ls := by
  simp only [Lexeme.Then, leads_leads]
  constructor
  · rintro ⟨d, rest, rfl, hw, hr⟩
    cases d with
    | noAddend => exact .inl hr
    | addend sign first more => exact .inr ⟨sign, _, rfl, first, more, rest, rfl, hw, hr⟩
  · rintro (hr | ⟨sign, _, rfl, first, more, rest, rfl, hw, hr⟩)
    · exact ⟨.noAddend, ls, rfl, ⟨trivial, Nat.zero_le _⟩, hr⟩
    · exact ⟨.addend sign first more, rest, rfl, hw, hr⟩

private theorem leads_furtherArguments : furtherArguments.Leads limit Rest ls ↔
    Rest ls ∨ Lexeme.comma.Then (sum.Leads limit (furtherArguments.Leads limit Rest)) ls := by
  simp only [Lexeme.Then, leads_leads]
  constructor
  · rintro ⟨d, rest, rfl, hw, hr⟩
    cases d with
    | noFurtherArgument => exact .inl hr
    | furtherArgument first more => exact .inr ⟨_, rfl, first, more, rest, rfl, hw, hr⟩
  · rintro (hr | ⟨_, rfl, first, more, rest, rfl, hw, hr⟩)
    · exact ⟨.noFurtherArgument, ls, rfl, ⟨trivial, Nat.zero_le _⟩, hr⟩
    · exact ⟨.furtherArgument first more, rest, rfl, hw, hr⟩

private theorem leads_arguments : arguments.Leads limit Rest ls ↔
    Rest ls ∨ sum.Leads limit (furtherArguments.Leads limit Rest) ls := by
  rw [leads_leads]
  constructor
  · rintro ⟨d, rest, rfl, hw, hr⟩
    cases d with
    | noArgument => exact .inl hr
    | arguments first more => exact .inr ⟨first, more, rest, rfl, hw, hr⟩
  · rintro (hr | ⟨first, more, rest, rfl, hw, hr⟩)
    · exact ⟨.noArgument, ls, rfl, ⟨trivial, Nat.zero_le _⟩, hr⟩
    · exact ⟨.arguments first more, rest, rfl, hw, hr⟩

private theorem leads_signed : signed.Leads limit Rest ls ↔
    (∃ sign : Sign, sign.lexeme.Then (Deeper limit fun room => signed.Leads room Rest) ls) ∨
      operand.Leads limit Rest ls := by
  constructor
  · rintro ⟨d, rest, rfl, ⟨hc, hd⟩, hr⟩
    cases d with
    | sign s inner =>
      obtain ⟨room, rfl⟩ := Nat.exists_eq_add_one.2 (Nat.lt_of_lt_of_le (Nat.succ_pos _) hd)
      exact .inl ⟨s, _, rfl, room, rfl, inner, rest, rfl, ⟨hc, Nat.le_of_succ_le_succ hd⟩, hr⟩
    | unsigned d => exact .inr ⟨d, rest, rfl, ⟨hc, hd⟩, hr⟩
  · rintro (⟨s, _, rfl, room, rfl, inner, rest, rfl, ⟨hc, hd⟩, hr⟩ | ⟨d, rest, rfl, hw, hr⟩)
    · exact ⟨.sign s inner, rest, rfl, ⟨hc, Nat.succ_le_succ hd⟩, hr⟩
    · exact ⟨.unsigned d, rest, rfl, hw, hr⟩

private theorem leads_operand : operand.Leads limit Rest ls ↔
    (∃ x, (Lexeme.number x).Then Rest ls) ∨ (∃ text, (Lexeme.field text).Then Rest ls) ∨
    (∃ text, (Lexeme.name text).Then (fun ls => Rest ls ∨ Function.IsName text ∧
      Lexeme.openParen.Then
        (Deeper limit fun room => arguments.Leads room (Lexeme.closeParen.Then Rest)) ls) ls) ∨
    Lexeme.openParen.Then (Deeper limit fun room => sum.Leads room (Lexeme.closeParen.Then Rest)) ls := by
  constructor
  · rintro ⟨d, rest, rfl, ⟨hc, hd⟩, hr⟩
    cases d with
    | number x => exact .inl ⟨x, rest, rfl, hr⟩
    | field text => exact .inr (.inl ⟨text, rest, rfl, hr⟩)
    | name text => exact .inr (.inr (.inl ⟨text, rest, rfl, .inl hr⟩))
    | call text args =>
      obtain ⟨room, rfl⟩ := Nat.exists_eq_add_one.2 (Nat.lt_of_lt_of_le (Nat.succ_pos _) hd)
      exact .inr (.inr (.inl ⟨text, _, rfl, .inr ⟨hc.1, _, rfl, room, rfl, args, .closeParen :: rest,
        List.append_assoc .., ⟨hc.2, Nat.le_of_succ_le_succ hd⟩, rest, rfl, hr⟩⟩))
    | group inner =>
      obtain ⟨room, rfl⟩ := Nat.exists_eq_add_one.2 (Nat.lt_of_lt_of_le (Nat.succ_pos _) hd)
      exact .inr (.inr (.inr ⟨_, rfl, room, rfl, inner, .closeParen :: rest, List.append_assoc ..,
        ⟨hc, Nat.le_of_succ_le_succ hd⟩, rest, rfl, hr⟩))
  · rintro (⟨x, rest, rfl, hr⟩ | ⟨text, rest, rfl, hr⟩ | ⟨text, _, rfl, hname⟩ |
      ⟨_, rfl, room, rfl, inner, _, rfl, ⟨hc, hd⟩, rest, rfl, hr⟩)
    · exact ⟨.number x, rest, rfl, ⟨trivial, Nat.zero_le _⟩, hr⟩
    · exact ⟨.field text, rest, rfl, ⟨trivial, Nat.zero_le _⟩, hr⟩
    · rcases hname with hr | ⟨hn, _, rfl, room, rfl, args, _, rfl, ⟨hc, hd⟩, rest, rfl, hr⟩
      · exact ⟨.name text, _, rfl, ⟨trivial, Nat.zero_le _⟩, hr⟩
      · exact ⟨.call text args, rest, by simp [Phrase.lexemes], ⟨⟨hn, hc⟩, Nat.succ_le_succ hd⟩, hr⟩
    · exact ⟨.group inner, rest, by simp [Phrase.lexemes], ⟨hc, Nat.succ_le_succ hd⟩, hr⟩

end Category

namespace State
open Category

def Closes (limit : Nat) : List Frame → List Lexeme → Prop
  | [], ls => ls = []
  | ⟨outer, bracket⟩ :: frames, ls =>
    let room := limit - ambient frames
    let Outside := Lexeme.closeParen.Then
      (factors.Leads room (addends.Leads room (Closes limit frames)))
    match bracket with
    | .group => Outside ls
    | .call .. => furtherArguments.Leads (limit - ambient (⟨outer, bracket⟩ :: frames)) Outside ls

/-- The texts that go on behind a complete operand. -/
def After (limit : Nat) (frames : List Frame) : List Lexeme → Prop :=
  factors.Leads (limit - ambient frames) <|
    addends.Leads (limit - ambient frames) <| Closes limit frames

/-- The texts that go on with an operand inside `depth` parentheses, signs and calls. -/
def Operand (limit depth : Nat) (frames : List Frame) : List Lexeme → Prop :=
  signed.Leads (limit - depth) (After limit frames)

variable {limit depth : Nat} {frames : List Frame} {lexeme : Lexeme} {ls : List Lexeme}

private theorem after_iff : After limit frames ls ↔
    Closes limit frames ls ∨
      (∃ sign : Sign, sign.lexeme.Then (Operand limit (ambient frames) frames) ls) ∨
      ∃ scaling : Scaling, scaling.lexeme.Then (Operand limit (ambient frames) frames) ls := by
  rw [After, leads_factors, leads_addends, leads_product, or_assoc]
  rfl

private theorem closes_cons : Closes limit frames (lexeme :: ls) ↔
    match lexeme, frames with
    | .closeParen, _ :: frames => After limit frames ls
    | .comma, ⟨_, .call ..⟩ :: _ => Operand limit (ambient frames) frames ls
    | _, _ => False := by
  rcases frames with _ | ⟨⟨outer, _ | ⟨function, args⟩⟩, frames⟩
  · cases lexeme <;> simp [Closes]
  · cases lexeme <;> simp [Closes, Lexeme.then_cons, After]
  · simp only [Closes, leads_furtherArguments, leads_sum, Lexeme.then_cons]
    cases lexeme <;> simp [After, Operand, Closes]

private theorem exists_sign_iff :
    (∃ sign : Sign, lexeme = sign.lexeme) ↔ lexeme = .plus ∨ lexeme = .minus := by
  constructor
  · rintro ⟨sign, rfl⟩
    cases sign <;> simp [Sign.lexeme]
  · rintro (rfl | rfl)
    · exact ⟨.plus, rfl⟩
    · exact ⟨.minus, rfl⟩

private theorem exists_scaling_iff :
    (∃ scaling : Scaling, lexeme = scaling.lexeme) ↔ lexeme = .star ∨ lexeme = .slash := by
  constructor
  · rintro ⟨scaling, rfl⟩
    cases scaling <;> simp [Scaling.lexeme]
  · rintro (rfl | rfl)
    · exact ⟨.times, rfl⟩
    · exact ⟨.over, rfl⟩

private theorem after_cons : After limit frames (lexeme :: ls) ↔
    match lexeme with
    | .plus | .minus | .star | .slash => Operand limit (ambient frames) frames ls
    | _ => Closes limit frames (lexeme :: ls) := by
  rw [after_iff]
  simp only [Lexeme.then_cons, exists_and_right, exists_sign_iff, exists_scaling_iff]
  cases lexeme <;> simp [closes_cons]

private theorem not_operand_nil : ¬Operand limit depth frames [] := by
  rintro ⟨d, rest, he, -⟩
  obtain ⟨lexeme, more, hl, -⟩ := d.signed_head
  rw [hl] at he
  cases he

private theorem deeper_sub {P : Nat → List Lexeme → Prop} :
    Deeper (limit - depth) P ls ↔ depth < limit ∧ P (limit - (depth + 1)) ls := by
  constructor
  · rintro ⟨room, he, hp⟩
    obtain rfl : room = limit - (depth + 1) := by omega
    exact ⟨by omega, hp⟩
  · rintro ⟨hd, hp⟩
    exact ⟨limit - (depth + 1), by omega, hp⟩

def FirstArgument (limit depth : Nat) (outer inner : List Frame) (ls : List Lexeme) : Prop :=
  Lexeme.closeParen.Then (After limit outer) ls ∨ Operand limit depth inner ls

section
variable {level : Level}

private theorem ambient_level (bracket : Bracket) (hd : depth = level.signs.length + ambient frames) :
    ambient (⟨level, bracket⟩ :: frames) = depth + 1 := by
  rw [ambient_cons]
  omega

private theorem after_group (hd : depth = level.signs.length + ambient frames) :
    After limit (⟨level, .group⟩ :: frames) =
      factors.Leads (limit - (depth + 1)) (addends.Leads (limit - (depth + 1))
        (Lexeme.closeParen.Then (After limit frames))) := by
  rw [After, ambient_level _ hd]
  rfl

private theorem after_call (function : Function) (args : List Expr)
    (hd : depth = level.signs.length + ambient frames) :
    After limit (⟨level, .call function args⟩ :: frames) =
      factors.Leads (limit - (depth + 1)) (addends.Leads (limit - (depth + 1))
        (furtherArguments.Leads (limit - (depth + 1)) (Lexeme.closeParen.Then (After limit frames)))) := by
  have hcloses : Closes limit (⟨level, .call function args⟩ :: frames) =
      furtherArguments.Leads (limit - ambient (⟨level, .call function args⟩ :: frames))
        (Lexeme.closeParen.Then (After limit frames)) := rfl
  rw [After, hcloses, ambient_level _ hd]

private theorem deeper_group (hd : depth = level.signs.length + ambient frames) :
    (Deeper (limit - depth) fun room => sum.Leads room (Lexeme.closeParen.Then (After limit frames))) ls ↔
      depth < limit ∧ Operand limit (depth + 1) (⟨level, .group⟩ :: frames) ls := by
  rw [deeper_sub, leads_sum, Operand, after_group hd]

private theorem deeper_call (function : Function) (args : List Expr)
    (hd : depth = level.signs.length + ambient frames) :
    (Deeper (limit - depth) fun room =>
        arguments.Leads room (Lexeme.closeParen.Then (After limit frames))) ls ↔
      depth < limit ∧
        FirstArgument limit (depth + 1) frames (⟨level, .call function args⟩ :: frames) ls := by
  rw [deeper_sub, leads_arguments, leads_sum, FirstArgument, Operand, after_call function args hd]

end

def Named (limit depth : Nat) (frames : List Frame) (text : String) (ls : List Lexeme) : Prop :=
  After limit frames ls ∨ Function.IsName text ∧ Lexeme.openParen.Then
    (Deeper (limit - depth) fun room =>
      arguments.Leads room (Lexeme.closeParen.Then (After limit frames))) ls

private theorem operand_cons (level : Level) (hd : depth = level.signs.length + ambient frames) :
    Operand limit depth frames (lexeme :: ls) ↔
    match lexeme with
    | .number _ | .field _ => After limit frames ls
    | .name text => Named limit depth frames text ls
    | .plus | .minus => depth < limit ∧ Operand limit (depth + 1) frames ls
    | .openParen => depth < limit ∧ Operand limit (depth + 1) (⟨level, .group⟩ :: frames) ls
    | _ => False := by
  rw [← deeper_group hd, Operand, leads_signed, leads_operand]
  simp only [Lexeme.then_cons, exists_and_right, exists_sign_iff, deeper_sub]
  cases lexeme <;> simp [Operand, Named]

/-- The texts that make a formula, with at most `limit` parentheses, signs and calls in each other, of
what has been read up to a state. -/
def Continues (limit : Nat) (s : State) (ls : List Lexeme) : Prop :=
  match s.place, s.frames with
  | .operand, frames => Operand limit s.depth frames ls
  | .firstArgument, ⟨_, .call ..⟩ :: outer => FirstArgument limit s.depth outer s.frames ls
  | .firstArgument, frames => Operand limit s.depth frames ls
  | .named text, frames => Named limit s.depth frames text ls
  | .after _, frames => After limit frames ls

/-- Behind a complete operand no sign is left. -/
def Settled (s : State) : Prop :=
  ∀ e, s.place = .after e → s.level.signs = []

/-- All that can come of reading one token. -/
inductive Reads (s : State) (t : Token) : Except Error State → Prop
  /-- The lexeme is taken off the texts that may follow. -/
  | shifts (s' : State) (hs : s'.Settled)
    (h : ∀ limit ls, s.Continues limit (t.lexeme :: ls) ↔ s'.Continues limit ls) : Reads s t (.ok s')
  /-- The lexeme opens a sign, a parenthesis or a call. -/
  | opens (s' : State) (hs : s'.Settled) (hd : s'.depth = s.depth + 1)
    (h : ∀ limit ls, s.Continues limit (t.lexeme :: ls) ↔
      s.depth < limit ∧ s'.Continues limit ls) : Reads s t (checkDepth s')
  | wrongArity (function : Function) (n : Nat) : Reads s t (.error (.wrongArity function n))
  /-- No text that may follow begins with the lexeme. -/
  | unexpected (h : ∀ limit ls, ¬s.Continues limit (t.lexeme :: ls)) :
    Reads s t (.error (.unexpectedToken t))
  | unknown (text : String) (hp : s.place = .named text) (ht : t.lexeme = .openParen)
    (hn : ¬Function.IsName text) : Reads s t (.error (.unknownFunction text))

variable {s : State} {t : Token}

private theorem settled_complete (frames : List Frame) (level : Level) (e : Expr) :
    (complete frames level e).Settled :=
  fun _ _ => rfl

theorem settled_of_place (h : ∀ e, s.place ≠ .after e) : s.Settled :=
  fun e he => absurd he (h e)

private theorem reads_opened {frames : List Frame} {level : Level}
    (hd : (State.mk frames level .operand).depth = s.depth + 1)
    (h : ∀ limit ls, s.Continues limit (t.lexeme :: ls) ↔
      s.depth < limit ∧ Operand limit (s.depth + 1) frames ls) :
    s.Reads t (checkDepth ⟨frames, level, .operand⟩) := by
  refine .opens _ (settled_of_place (by simp)) hd ?_
  rwa [← hd] at h

private theorem beginOperand_reads (s : State) (t : Token)
    (h : ∀ limit ls, s.Continues limit (t.lexeme :: ls) ↔
    Operand limit s.depth s.frames (t.lexeme :: ls)) : s.Reads t (s.beginOperand t) := by
  obtain ⟨lexeme, offset⟩ := t
  have hd : s.depth = s.level.signs.length + ambient s.frames := depth_eq ..
  have hsign (sign : Sign) :
      (State.mk s.frames { s.level with signs := sign :: s.level.signs } .operand).depth =
        s.depth + 1 := by
    rw [depth_eq, hd, List.length_cons]
    omega
  simp only [operand_cons s.level hd] at h
  cases lexeme with
  | number x => exact .shifts _ (settled_complete _ _ _) h
  | field text => exact .shifts _ (settled_complete _ _ _) h
  | name text => exact .shifts _ (settled_of_place (by simp)) h
  | plus => exact reads_opened (hsign .plus) h
  | minus => exact reads_opened (hsign .minus) h
  | openParen =>
    refine reads_opened ?_ h
    rw [depth_eq, ambient_level .group hd]
    exact Nat.zero_add _
  | _ => exact .unexpected fun limit ls hc => (h limit ls).1 hc

private theorem closeCall_reads (frames : List Frame) (level : Level) (function : Function)
    (args : List Expr)
    (h : ∀ limit ls, s.Continues limit (t.lexeme :: ls) ↔ After limit frames ls) :
    s.Reads t (closeCall frames level function args) := by
  unfold closeCall
  split
  · exact .shifts _ (settled_complete _ _ _) h
  · exact .wrongArity function args.length

private theorem openCall_reads {text : String} (hp : s.place = .named text)
    (ht : t.lexeme = .openParen) :
    s.Reads t (s.openCall text) := by
  have hd : s.depth = s.level.signs.length + ambient s.frames := depth_eq ..
  unfold openCall
  split
  · rename_i function hf
    have hn : Function.IsName text := by
      rw [← Function.isSome_ofName?_iff, hf]
      rfl
    have hdepth : (State.mk (⟨s.level, .call function []⟩ :: s.frames) {} .firstArgument).depth =
        s.depth + 1 := by
      rw [depth_eq, ambient_level (.call function []) hd]
      exact Nat.zero_add _
    refine .opens _ (settled_of_place (by simp)) hdepth fun limit ls => ?_
    simp only [Continues, hp, ht, hdepth, Named, after_cons, closes_cons, Lexeme.then_cons, hn,
      false_or, true_and]
    exact deeper_call function [] hd
  · rename_i hf
    refine .unknown text hp ht ?_
    rw [← Function.isSome_ofName?_iff, hf]
    simp

private theorem reads_operator {frames : List Frame} {level : Level} (hl : level.signs = [])
    (h : ∀ limit ls, s.Continues limit (t.lexeme :: ls) ↔ Operand limit (ambient frames) frames ls) :
    s.Reads t (.ok ⟨frames, level, .operand⟩) := by
  have hd : (State.mk frames level .operand).depth = ambient frames := by
    rw [depth_eq, hl]
    exact Nat.zero_add _
  refine .shifts _ (settled_of_place (by simp)) ?_
  rwa [← hd] at h

private theorem continueAfter_reads (s : State) (level : Level) (hl : level.signs = []) (e : Expr)
    (t : Token)
    (h : ∀ limit ls, s.Continues limit (t.lexeme :: ls) ↔ After limit s.frames (t.lexeme :: ls)) :
    s.Reads t (continueAfter { s with level } e t) := by
  obtain ⟨lexeme, offset⟩ := t
  obtain ⟨frames, outerLevel, place⟩ := s
  simp only [after_cons, closes_cons] at h
  cases lexeme with
  | plus => exact reads_operator rfl h
  | minus => exact reads_operator rfl h
  | star => exact reads_operator hl h
  | slash => exact reads_operator hl h
  | closeParen =>
    rcases frames with _ | ⟨⟨outer, _ | ⟨function, args⟩⟩, frames⟩
    · exact .unexpected fun limit ls hc => (h limit ls).1 hc
    · exact .shifts _ (settled_complete _ _ _) h
    · exact closeCall_reads _ _ _ _ h
  | comma =>
    rcases frames with _ | ⟨⟨outer, _ | ⟨function, args⟩⟩, frames⟩
    · exact .unexpected fun limit ls hc => (h limit ls).1 hc
    · exact .unexpected fun limit ls hc => (h limit ls).1 hc
    · exact reads_operator rfl h
  | _ => exact .unexpected fun limit ls hc => (h limit ls).1 hc

theorem step_reads (hs : s.Settled) (t : Token) : s.Reads t (s.step t) := by
  obtain ⟨frames, level, place⟩ := s
  cases place with
  | operand => exact beginOperand_reads _ t fun _ _ => Iff.rfl
  | firstArgument =>
    obtain ⟨lexeme, offset⟩ := t
    rcases frames with _ | ⟨⟨outer, _ | ⟨function, args⟩⟩, frames⟩
    · cases lexeme <;>
        exact beginOperand_reads ⟨[], level, .firstArgument⟩ _ fun _ _ => Iff.rfl
    · cases lexeme <;>
        exact beginOperand_reads ⟨⟨outer, .group⟩ :: frames, level, .firstArgument⟩ _ fun _ _ => Iff.rfl
    · have hd := depth_eq (⟨outer, .call function args⟩ :: frames) level .firstArgument
      cases lexeme with
      | closeParen =>
        refine closeCall_reads _ _ _ _ fun limit ls => ?_
        simp only [Continues, FirstArgument, Lexeme.then_cons, operand_cons level hd, true_and, or_false]
      | _ =>
        refine beginOperand_reads ⟨⟨outer, .call function args⟩ :: frames, level, .firstArgument⟩ _
          fun limit ls => ?_
        simp [Continues, FirstArgument, Lexeme.then_cons]
  | named text =>
    obtain ⟨lexeme, offset⟩ := t
    cases lexeme with
    | openParen => exact openCall_reads rfl rfl
    | _ =>
      refine continueAfter_reads ⟨frames, level, .named text⟩ level.unsigned rfl
        (level.signed (.field text)) _ fun limit ls => ?_
      simp [Continues, Named, Lexeme.then_cons]
  | after e => exact continueAfter_reads _ level (hs e rfl) e t fun _ _ => Iff.rfl

private theorem closes_replicate (limit : Nat) (frames : List Frame) :
    Closes limit frames (.replicate frames.length .closeParen) := by
  induction frames with
  | nil => rfl
  | cons frame frames ih =>
    have hafter : Lexeme.closeParen.Then (After limit frames)
        (.replicate (frame :: frames).length .closeParen) :=
      ⟨_, rfl, after_iff.2 (.inl ih)⟩
    obtain ⟨outer, _ | ⟨function, args⟩⟩ := frame
    · exact hafter
    · exact leads_furtherArguments.2 (.inl hafter)

theorem exists_continues (limit : Nat) (s : State) : ∃ ls, s.Continues limit ls := by
  have hafter (frames : List Frame) : After limit frames (.replicate frames.length .closeParen) :=
    after_iff.2 (.inl (closes_replicate limit frames))
  have hoperand (frames : List Frame) (depth : Nat) : ∃ ls, Operand limit depth frames ls :=
    ⟨_, .unsigned (.number 0), _, rfl, ⟨trivial, Nat.zero_le _⟩, hafter frames⟩
  obtain ⟨frames, level, place⟩ := s
  cases place with
  | operand => exact hoperand frames _
  | firstArgument =>
    rcases frames with _ | ⟨⟨outer, _ | ⟨function, args⟩⟩, frames⟩
    · exact hoperand [] _
    · exact hoperand (⟨outer, .group⟩ :: frames) _
    · exact ⟨_, .inl ⟨_, rfl, hafter frames⟩⟩
  | named text => exact ⟨_, .inl (hafter frames)⟩
  | after e => exact ⟨_, hafter frames⟩

private theorem not_after_nil (limit : Nat) (frame : Frame) (frames : List Frame) :
    ¬After limit (frame :: frames) [] := by
  obtain ⟨outer, _ | ⟨function, args⟩⟩ := frame <;>
    simp [after_iff, Closes, leads_furtherArguments, Lexeme.not_then_nil]

theorem finish_cases (s : State) :
    (∃ e, s.finish = .ok e) ∨ (s.finish = .error .unexpectedEnd ∧ ∀ limit, ¬s.Continues limit []) := by
  obtain ⟨frames, level, place⟩ := s
  cases place with
  | operand =>
    exact .inr ⟨by cases frames <;> rfl, fun limit => not_operand_nil⟩
  | firstArgument =>
    refine .inr ⟨by cases frames <;> rfl, fun limit => ?_⟩
    rcases frames with _ | ⟨⟨outer, _ | ⟨function, args⟩⟩, frames⟩
    · exact not_operand_nil
    · exact not_operand_nil
    · exact fun h => h.elim Lexeme.not_then_nil not_operand_nil
  | named text =>
    cases frames with
    | nil => exact .inl ⟨_, rfl⟩
    | cons frame frames =>
      refine .inr ⟨rfl, fun limit h => ?_⟩
      rcases h with h | ⟨-, h⟩
      · exact not_after_nil limit frame frames h
      · exact Lexeme.not_then_nil h
  | after e =>
    cases frames with
    | nil => exact .inl ⟨_, rfl⟩
    | cons frame frames => exact .inr ⟨rfl, fun limit => not_after_nil limit frame frames⟩

end State

/-- Whether the lexemes are a formula that calls functions only and has no path through more than `limit`
parentheses, signs and calls. -/
def IsFormula (limit : Nat) (ls : List Lexeme) : Prop :=
  ∃ d : Phrase .sum, d.lexemes = ls ∧ d.Within limit

/-- Whether such a formula begins with the lexemes. -/
def Begins (limit : Nat) (ls : List Lexeme) : Prop :=
  ∃ rest, IsFormula limit (ls ++ rest)

namespace State
open Category

private theorem continues_start (limit : Nat) (ls : List Lexeme) :
    Continues limit {} ls ↔ IsFormula limit ls := by
  have hsum : Continues limit {} = sum.Leads limit (· = []) := leads_sum.symm
  rw [hsum]
  constructor
  · rintro ⟨d, _, rfl, hw, rfl⟩
    exact ⟨d, (List.append_nil _).symm, hw⟩
  · rintro ⟨d, rfl, hw⟩
    exact ⟨d, [], (List.append_nil _).symm, hw, rfl⟩

private theorem step_ok {s s' : State} (hs : s.Settled) {t : Token} (h : s.step t = .ok s') :
    s'.Settled ∧ ∀ limit ls, depthLimit ≤ limit →
      (s.Continues limit (t.lexeme :: ls) ↔ s'.Continues limit ls) := by
  have hr := step_reads hs t
  generalize s.step t = answer at h hr
  cases hr with
  | shifts next hn hc =>
    cases h
    exact ⟨hn, fun limit ls _ => hc limit ls⟩
  | opens next hn hd hc =>
    unfold checkDepth at h
    split at h
    · cases h
    · cases h
      refine ⟨hn, fun limit ls hl => ?_⟩
      rw [hc limit ls, and_iff_right (by omega)]
  | wrongArity | unexpected | unknown => cases h

theorem foldlM_ok {s s' : State} (hs : s.Settled) {ts : List Token} (h : ts.foldlM step s = .ok s') :
    s'.Settled ∧ ∀ limit ls, depthLimit ≤ limit →
      (s.Continues limit (ts.map Token.lexeme ++ ls) ↔ s'.Continues limit ls) := by
  induction ts generalizing s with
  | nil =>
    cases h
    exact ⟨hs, fun _ _ _ => Iff.rfl⟩
  | cons t ts ih =>
    rw [List.foldlM_cons] at h
    cases hstep : s.step t with
    | error e =>
      rw [hstep] at h
      cases h
    | ok middle =>
      rw [hstep] at h
      obtain ⟨hm, hfirst⟩ := step_ok hs hstep
      obtain ⟨hs', hmore⟩ := ih hm h
      exact ⟨hs', fun limit ls hl => (hfirst limit _ hl).trans (hmore limit ls hl)⟩

theorem continues_iff {s : State} {ts : List Token} (h : ts.foldlM step {} = .ok s) {limit : Nat}
    (hl : depthLimit ≤ limit) (ls : List Lexeme) :
    s.Continues limit ls ↔ IsFormula limit (ts.map Token.lexeme ++ ls) := by
  have hs : Settled {} := settled_of_place (by simp)
  rw [← continues_start, (foldlM_ok hs h).2 limit ls hl]

theorem begins_of_foldlM {s : State} {ts : List Token} (h : ts.foldlM step {} = .ok s) :
    Begins depthLimit (ts.map Token.lexeme) := by
  obtain ⟨ls, hc⟩ := exists_continues depthLimit s
  exact ⟨ls, (continues_iff h (Nat.le_refl _) ls).1 hc⟩

theorem exists_of_foldlM_error {s : State} {ts : List Token} {e : Error}
    (h : ts.foldlM step s = .error e) :
    ∃ before t after s', ts = before ++ t :: after ∧ before.foldlM step s = .ok s' ∧
      s'.step t = .error e := by
  induction ts generalizing s with
  | nil => cases h
  | cons t ts ih =>
    rw [List.foldlM_cons] at h
    cases hstep : s.step t with
    | error e' =>
      rw [hstep] at h
      cases h
      exact ⟨[], t, ts, s, rfl, rfl, hstep⟩
    | ok middle =>
      rw [hstep] at h
      obtain ⟨before, t', after, s', rfl, hb, ht⟩ := ih h
      refine ⟨t :: before, t', after, s', rfl, ?_, ht⟩
      rw [List.foldlM_cons, hstep]
      exact hb

end State
end Millwork.Formula
