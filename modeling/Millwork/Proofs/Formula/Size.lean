import Millwork.Proofs.Formula.Fields
import Millwork.Proofs.Formula.FirstError
/-!
# The size of an expression

A token adds at most one node to what has been read, so the expression of a formula has no more nodes than
the formula has tokens (`State.step_nodes`, `State.foldlM_nodes`). Evaluating an expression nests as deep
as the expression is high, and that is at most its number of nodes.
-/
namespace Millwork.Formula
namespace Expr
mutual
def nodes : Expr → Nat
  | .number _ | .field _ => 1
  | .neg operand => operand.nodes + 1
  | .binary _ lhs rhs => lhs.nodes + rhs.nodes + 1
  | .call _ args => nodesAll args + 1

def nodesAll : List Expr → Nat
  | [] => 0
  | e :: more => e.nodes + nodesAll more
end

mutual
/-- The nodes on the longest path through the expression. -/
def height : Expr → Nat
  | .number _ | .field _ => 1
  | .neg operand => operand.height + 1
  | .binary _ lhs rhs => max lhs.height rhs.height + 1
  | .call _ args => heightAll args + 1

def heightAll : List Expr → Nat
  | [] => 0
  | e :: more => max e.height (heightAll more)
end

private theorem nodesAll_append (es more : List Expr) :
    nodesAll (es ++ more) = nodesAll es + nodesAll more := by
  induction es with
  | nil => exact (Nat.zero_add _).symm
  | cons e es ih => rw [List.cons_append, nodesAll, nodesAll, ih, Nat.add_assoc]

private theorem nodesAll_reverse (es : List Expr) : nodesAll es.reverse = nodesAll es := by
  induction es with
  | nil => rfl
  | cons e es ih =>
    rw [List.reverse_cons, nodesAll_append, ih, nodesAll, nodesAll, nodesAll]
    omega

private theorem height_pos (e : Expr) : 0 < e.height := by
  cases e <;> exact Nat.succ_pos _

mutual
private theorem height_le_nodes (e : Expr) : e.height ≤ e.nodes := by
  cases e with
  | number x | field name => exact Nat.le_refl 1
  | neg operand => exact Nat.succ_le_succ (height_le_nodes operand)
  | binary op lhs rhs =>
    have hl := height_le_nodes lhs
    have hr := height_le_nodes rhs
    rw [height, nodes]
    omega
  | call function args => exact Nat.succ_le_succ (heightAll_le_nodesAll args)

private theorem heightAll_le_nodesAll (es : List Expr) : heightAll es ≤ nodesAll es := by
  cases es with
  | nil => exact Nat.le_refl 0
  | cons e more =>
    have he := height_le_nodes e
    have hmore := heightAll_le_nodesAll more
    rw [heightAll, nodesAll]
    omega
end

/-- The value of an expression, found with at most `room` evaluations open at a time. -/
def evalWithin (order : Order) : Nat → Expr → Option Operand
  | 0, _ => none
  | _ + 1, .number x => some (.number x)
  | _ + 1, .field name =>
    match order.get? name with
    | some value => some (.field value)
    | none => some .missing
  | room + 1, .neg operand =>
    (evalWithin order room operand).map fun value => .number (-value.toNumber)
  | room + 1, .binary op lhs rhs => do
    let a ← evalWithin order room lhs
    let b ← evalWithin order room rhs
    return .number (op.apply a.toNumber b.toNumber)
  | room + 1, .call function args => do
    let operands ← args.mapM (evalWithin order room)
    return .number (function.apply operands)

private theorem mapM_evalWithin {order : Order} {room : Nat}
    (h : ∀ e : Expr, e.evalWithin order room = if e.height ≤ room then some (e.eval order) else none)
    (es : List Expr) : es.mapM (evalWithin order room) =
      if heightAll es ≤ room then some (evalAll order es) else none := by
  induction es with
  | nil => rfl
  | cons e more ih =>
    rw [List.mapM_cons, h, ih, heightAll, evalAll]
    simp only [Nat.max_le]
    by_cases he : e.height ≤ room
    · by_cases hmore : heightAll more ≤ room
      · simp [he, hmore]
      · simp [hmore]
    · simp [he]

private theorem evalWithin_eq (order : Order) (room : Nat) (e : Expr) :
    e.evalWithin order room = if e.height ≤ room then some (e.eval order) else none := by
  induction room generalizing e with
  | zero => rw [if_neg (Nat.not_le.2 e.height_pos)]; rfl
  | succ room ih =>
    cases e with
    | number x => simp [evalWithin, height, eval]
    | field name =>
      rw [evalWithin, eval, height, if_pos (Nat.le_add_left 1 room)]
      cases order.get? name <;> rfl
    | neg operand =>
      rw [evalWithin, ih, height, eval]
      by_cases h : operand.height ≤ room
      · simp [h]
      · simp [h]
    | binary op lhs rhs =>
      rw [evalWithin, ih, ih, height, eval]
      simp only [Nat.add_le_add_iff_right, Nat.max_le]
      by_cases hl : lhs.height ≤ room
      · by_cases hr : rhs.height ≤ room
        · simp [hl, hr]
        · simp [hr]
      · simp [hl]
    | call function args =>
      rw [evalWithin, mapM_evalWithin ih, height, eval]
      by_cases h : heightAll args ≤ room
      · simp [h]
      · simp [h]

end Expr

/-- The left-hand side and the operator that joins it to what is to come. -/
def Pending.nodes (pending : Pending) : Nat :=
  match pending with
  | some (lhs, _) => lhs.nodes + 1
  | none => 0

def Level.nodes (level : Level) : Nat :=
  level.sum.nodes + level.product.nodes + level.signs.length

def Bracket.nodes : Bracket → Nat
  | .group => 0
  | .call _ args => Expr.nodesAll args + 1

def Place.nodes : Place → Nat
  | .operand | .firstArgument => 0
  | .named _ => 1
  | .after e => e.nodes

namespace State
def framesNodes : List Frame → Nat
  | [] => 0
  | ⟨outer, bracket⟩ :: frames => outer.nodes + bracket.nodes + framesNodes frames

/-- The nodes of all expressions that are complete, and those that are sure to come. -/
def nodes (s : State) : Nat :=
  framesNodes s.frames + s.level.nodes + s.place.nodes

end State

@[simp] theorem Pending.nodes_none : Pending.nodes none = 0 := rfl

@[simp] theorem Pending.nodes_some (lhs : Expr) (op : Operator) :
    Pending.nodes (some (lhs, op)) = lhs.nodes + 1 := rfl

private theorem Pending.nodes_close (pending : Pending) (rhs : Expr) :
    (pending.close rhs).nodes = pending.nodes + rhs.nodes := by
  cases pending with
  | none => exact (Nat.zero_add _).symm
  | some lhs =>
    rw [close, nodes, Expr.nodes]
    omega

private theorem Sign.nodes_apply (sign : Sign) (e : Expr) : (sign.apply e).nodes = e.nodes + 1 := by
  cases sign <;> rfl

private theorem Level.nodes_signed (level : Level) (operand : Expr) :
    (level.signed operand).nodes = level.signs.length + operand.nodes := by
  unfold signed
  induction level.signs generalizing operand with
  | nil => exact (Nat.zero_add _).symm
  | cons sign signs ih =>
    rw [List.foldl_cons, ih, Sign.nodes_apply, List.length_cons]
    omega

private theorem Level.nodes_total (level : Level) (e : Expr) :
    (level.total e).nodes = level.sum.nodes + level.product.nodes + e.nodes := by
  rw [total, Pending.nodes_close, Pending.nodes_close, Nat.add_assoc]

private theorem Level.nodes_unsigned (level : Level) :
    level.unsigned.nodes + level.signs.length = level.nodes :=
  rfl

namespace State
private theorem nodes_complete (frames : List Frame) (level : Level) (operand : Expr) :
    (complete frames level operand).nodes = framesNodes frames + level.nodes + operand.nodes := by
  have hsigned := level.nodes_signed operand
  have hlevel := level.nodes_unsigned
  simp only [complete, nodes, Place.nodes]
  omega

private theorem nodes_closeCall {frames : List Frame} {outer : Level} {function : Function}
    {args : List Expr} {s : State} (h : closeCall frames outer function args = .ok s) :
    s.nodes = framesNodes frames + outer.nodes + (Expr.nodesAll args + 1) := by
  obtain rfl := closeCall_ok h
  exact nodes_complete frames outer _

private theorem nodes_enter (frames : List Frame) (outer : Level) (bracket : Bracket) (place : Place) :
    nodes { frames := ⟨outer, bracket⟩ :: frames, place } =
      framesNodes frames + outer.nodes + bracket.nodes + place.nodes := by
  simp only [nodes, framesNodes, Level.nodes, Pending.nodes_none, List.length_nil]
  omega

private theorem nodes_beginOperand {s s' : State} {t : Token} (h : s.beginOperand t = .ok s') :
    s'.nodes ≤ framesNodes s.frames + s.level.nodes + 1 := by
  unfold beginOperand at h
  split at h
  · cases h
    rw [nodes_complete]
    exact Nat.le_refl _
  · cases h
    rw [nodes_complete]
    exact Nat.le_refl _
  · cases h
    exact Nat.le_refl _
  · obtain rfl := checkDepth_ok h
    exact Nat.le_refl _
  · obtain rfl := checkDepth_ok h
    exact Nat.le_refl _
  · obtain rfl := checkDepth_ok h
    rw [nodes_enter]
    exact Nat.le_succ _
  · cases h

private theorem nodes_addTo (s : State) (e : Expr) (op : Operator) :
    (s.addTo e op).nodes ≤ framesNodes s.frames + s.level.nodes + e.nodes + 1 := by
  have htotal := s.level.nodes_total e
  simp only [addTo, nodes, Level.nodes, Place.nodes, Pending.nodes_some, Pending.nodes_none,
    List.length_nil]
  omega

private theorem nodes_multiplyTo (s : State) (e : Expr) (op : Operator) :
    (s.multiplyTo e op).nodes ≤ framesNodes s.frames + s.level.nodes + e.nodes + 1 := by
  have hclose := s.level.product.nodes_close e
  simp only [multiplyTo, nodes, Level.nodes, Place.nodes, Pending.nodes_some]
  omega

private theorem nodes_continueAfter {s s' : State} {e : Expr} {t : Token}
    (h : s.continueAfter e t = .ok s') :
    s'.nodes ≤ framesNodes s.frames + s.level.nodes + e.nodes + 1 := by
  have htotal := s.level.nodes_total e
  have hlevel : s.level.nodes = s.level.sum.nodes + s.level.product.nodes + s.level.signs.length := rfl
  unfold continueAfter at h
  split at h
  · cases h
    exact nodes_addTo s e .add
  · cases h
    exact nodes_addTo s e .sub
  · cases h
    exact nodes_multiplyTo s e .mul
  · cases h
    exact nodes_multiplyTo s e .div
  -- a closed group is no node of its own
  · rename_i hf
    cases h
    rw [nodes_complete, hf]
    simp only [framesNodes, Bracket.nodes]
    omega
  · rename_i hf
    rw [nodes_closeCall h, hf, Expr.nodesAll_reverse]
    simp only [framesNodes, Bracket.nodes, Expr.nodesAll]
    omega
  · rename_i hf
    cases h
    rw [hf, nodes_enter]
    simp only [framesNodes, Bracket.nodes, Place.nodes, Expr.nodesAll]
    omega
  · cases h

private theorem nodes_openCall {s s' : State} {name : String} (h : s.openCall name = .ok s') :
    s'.nodes = framesNodes s.frames + s.level.nodes + 1 := by
  unfold openCall at h
  split at h
  · obtain rfl := checkDepth_ok h
    exact nodes_enter s.frames s.level (.call _ []) .firstArgument
  · cases h

private theorem nodes_of_place {s : State} {place : Place} (h : s.place = place) :
    s.nodes = framesNodes s.frames + s.level.nodes + place.nodes := by
  rw [nodes, h]

theorem step_nodes {s s' : State} {t : Token} (h : s.step t = .ok s') : s'.nodes ≤ s.nodes + 1 := by
  unfold step at h
  split at h
  case h_1 hp =>
    rw [nodes_of_place hp]
    exact nodes_beginOperand h
  case h_2 hp _ hf =>
    rw [nodes_closeCall h, nodes_of_place hp, hf, Expr.nodesAll_reverse]
    simp only [framesNodes, Bracket.nodes]
    omega
  case h_3 hp _ =>
    rw [nodes_of_place hp]
    exact nodes_beginOperand h
  -- the name was counted when it was read, and counts as the call from here on
  case h_4 hp _ =>
    rw [nodes_openCall h, nodes_of_place hp]
    exact Nat.le_succ _
  case h_5 name hp _ =>
    have hcontinue := nodes_continueAfter h
    have hsigned := s.level.nodes_signed (.field name)
    have hlevel := s.level.nodes_unsigned
    rw [Expr.nodes] at hsigned
    rw [nodes_of_place hp, Place.nodes]
    dsimp only at hcontinue
    omega
  case h_6 hp =>
    rw [nodes_of_place hp]
    exact nodes_continueAfter h

theorem foldlM_nodes {s s' : State} {ts : List Token} (h : ts.foldlM step s = .ok s') :
    s'.nodes ≤ s.nodes + ts.length := by
  induction ts generalizing s with
  | nil =>
    cases h
    exact Nat.le_refl _
  | cons t ts ih =>
    rw [List.foldlM_cons] at h
    cases hstep : s.step t with
    | error e =>
      rw [hstep] at h
      cases h
    | ok middle =>
      rw [hstep] at h
      have hfirst := step_nodes hstep
      have hmore := ih h
      rw [List.length_cons]
      omega

private theorem finish_nodes {s : State} {e : Expr} (h : s.finish = .ok e) : e.nodes ≤ s.nodes := by
  unfold finish at h
  split at h
  case h_1 name hf hp =>
    cases h
    rw [nodes_of_place hp, Level.nodes_total, Level.nodes_signed]
    simp only [Level.nodes, Place.nodes, Expr.nodes]
    omega
  case h_2 e hf hp =>
    cases h
    rw [nodes_of_place hp, Level.nodes_total]
    simp only [Level.nodes, Place.nodes]
    omega
  case h_3 => cases h

end State

private theorem Expr.ofTokens_nodes {ts : List Token} {e : Expr} (h : ofTokens ts = .ok e) :
    e.nodes ≤ ts.length ∧ ts.length ≤ lengthLimit := by
  unfold ofTokens at h
  split at h
  · cases h
  · split at h
    · cases h
    · rename_i hlength
      cases hfold : ts.foldlM State.step {} with
      | error cause =>
        rw [hfold] at h
        cases h
      | ok s =>
        rw [hfold] at h
        have hnodes := State.foldlM_nodes hfold
        have hstart : State.nodes {} = 0 := rfl
        have hfinish := State.finish_nodes h
        exact ⟨by omega, Nat.le_of_not_lt hlength⟩

/-- The expression of a formula has no more nodes than the formula has tokens, of which there are at most
1024, and with that many evaluations open at a time it has its value for every order. -/
theorem parse_size {source : String} {formula : Formula} (h : parse source = .ok formula) :
    ∃ ts, tokens source = .ok ts ∧ formula.expr.nodes ≤ ts.length ∧ ts.length ≤ 1024 ∧
      ∀ order room, formula.expr.nodes ≤ room →
        formula.expr.evalWithin order room = some (formula.expr.eval order) := by
  have hexpr := exprOf_of_parse h
  unfold exprOf at hexpr
  cases ht : tokens source with
  | error cause =>
    rw [ht] at hexpr
    cases hexpr
  | ok ts =>
    rw [ht] at hexpr
    obtain ⟨hnodes, hlength⟩ := Expr.ofTokens_nodes hexpr
    refine ⟨ts, rfl, hnodes, hlength, fun order room hroom => ?_⟩
    have hheight := formula.expr.height_le_nodes
    rw [Expr.evalWithin_eq, if_pos (Nat.le_trans hheight hroom)]

-- the bound is reached: either sign is a node, and so is the operator between
example : (exprOf "-a + +b").toOption.map (fun e => (e.nodes, e.height)) = some (5, 3) := by
  decide +kernel

/-- Signs, a call and a quotient: twelve tokens, nine nodes. -/
theorem parse_size_signs :
    let source := "Math.min(-w, +2) - 1 / h"
    ∃ formula ts, parse source = .ok formula ∧ tokens source = .ok ts ∧
      formula.expr.nodes = 9 ∧ ts.length = 12 ∧ formula.expr.nodes ≤ ts.length ∧
      ∀ order, formula.expr.evalWithin order 9 = some (formula.expr.eval order) := by
  intro source
  have hnodes : (parse source).toOption.map (·.expr.nodes) = some 9 := by decide +kernel
  have hlength : (tokens source).toOption.map List.length = some 12 := by decide +kernel
  cases hp : parse source with
  | error failure =>
    rw [hp] at hnodes
    cases hnodes
  | ok formula =>
    obtain ⟨ts, ht, hle, -, hroom⟩ := parse_size hp
    rw [hp] at hnodes
    rw [ht] at hlength
    have hnine : formula.expr.nodes = 9 := Option.some.inj hnodes
    exact ⟨formula, ts, rfl, ht, hnine, Option.some.inj hlength, hle,
      fun order => hroom order 9 (Nat.le_of_eq hnine)⟩

end Millwork.Formula
