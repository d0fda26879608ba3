/-
# Actions as folds of a tree, and as steps of a stack machine

Actions can be carried out on a finished tree: `Actions.fold` visits its parts from left to right
and calls the action of a construct when its parts have been visited.  The same calls can be written
down as a list, the **reductions** of the tree (`Tree.reductions`), and carried out from the list
alone by a machine that keeps the values of finished parts on a stack (`Actions.perform`).

`Actions.perform_reductions`: the list does what the fold does, and puts one value on the stack.
-/
import DiceNotation.Tree

namespace DiceNotation

/-! ## 1. Folds -/

section Fold

variable {m : Type → Type} [Monad m] {α : Type}

mutual

/-- Carries out the actions of a tree, those of the parts before that of the whole. -/
def Actions.fold (acts : Actions m α) : Tree → m α
  | .literal t => acts.literal t
  | .binary left right o => do
    let x ← acts.fold left
    let y ← acts.fold right
    acts.binary x y o
  | .unary inner o => do
    let x ← acts.fold inner
    acts.unary x o
  | .suffix inner o => do
    let x ← acts.fold inner
    acts.suffix x o
  | .dice none sides => do
    let y ← acts.fold sides
    acts.dice none y
  | .dice (some num) sides => do
    let x ← acts.fold num
    let y ← acts.fold sides
    acts.dice (some x) y
  | .keep k target amount => do
    let x ← acts.fold target
    let y ← acts.fold amount
    acts.keep k x y
  | .explode target faces => do
    let x ← acts.fold target
    let y ← acts.fold faces
    acts.explode x y
  | .array items => do
    let xs ← acts.foldAll items
    acts.array xs
  | .index target position => do
    let x ← acts.fold target
    let y ← acts.fold position
    acts.index x y

/-- Carries out the actions of some trees, one tree after the other. -/
def Actions.foldAll (acts : Actions m α) : List Tree → m (List α)
  | [] => pure []
  | t :: trees => do
    let x ← acts.fold t
    let xs ← acts.foldAll trees
    return x :: xs

end

end Fold

/-! ## 2. Reductions -/

/-- The call of one action, without the values it is applied to: these are on the stack. -/
inductive Reduction where
  | literal (t : Token)
  | binary (o : Op)
  | unary (o : Op)
  | suffix (o : Op)
  /-- Dice, with a number in front of them or without. -/
  | dice (counted : Bool)
  | keep (k : Keep)
  | explode
  | array (size : Nat)
  | index
deriving DecidableEq, Repr

mutual

/-- The calls that the actions of a tree make, in their order: left to right, and the parts before
the whole. -/
def Tree.reductions : Tree → List Reduction
  | .literal t => [.literal t]
  | .binary left right o => left.reductions ++ right.reductions ++ [.binary o]
  | .unary inner o => inner.reductions ++ [.unary o]
  | .suffix inner o => inner.reductions ++ [.suffix o]
  | .dice none sides => sides.reductions ++ [.dice false]
  | .dice (some num) sides => num.reductions ++ sides.reductions ++ [.dice true]
  | .keep k target amount => target.reductions ++ amount.reductions ++ [.keep k]
  | .explode target faces => target.reductions ++ faces.reductions ++ [.explode]
  | .array items => reductionsOf items ++ [.array items.length]
  | .index target position => target.reductions ++ position.reductions ++ [.index]

/-- The calls of some trees, one tree after the other. -/
def reductionsOf : List Tree → List Reduction
  | [] => []
  | t :: trees => t.reductions ++ reductionsOf trees

end

section Machine

variable {m : Type → Type} [Monad m] {α : Type}

/-- Calls one action with values from the stack, the last one on top, and puts its value in their
place.  The machine is stuck if there are too few. -/
def Actions.reduce (acts : Actions m α) : Reduction → List α → OptionT m (List α)
  | .literal t, stack => return (← acts.literal t) :: stack
  | .binary o, y :: x :: stack => return (← acts.binary x y o) :: stack
  | .unary o, x :: stack => return (← acts.unary x o) :: stack
  | .suffix o, x :: stack => return (← acts.suffix x o) :: stack
  | .dice false, y :: stack => return (← acts.dice none y) :: stack
  | .dice true, y :: x :: stack => return (← acts.dice (some x) y) :: stack
  | .keep k, y :: x :: stack => return (← acts.keep k x y) :: stack
  | .explode, y :: x :: stack => return (← acts.explode x y) :: stack
  | .array size, stack =>
    if size ≤ stack.length then
      return (← acts.array (stack.take size).reverse) :: stack.drop size
    else failure
  | .index, y :: x :: stack => return (← acts.index x y) :: stack
  | _, _ => failure

/-- Calls the actions of a list one after the other. -/
def Actions.perform (acts : Actions m α) : List Reduction → List α → OptionT m (List α)
  | [], stack => return stack
  | r :: steps, stack => do
    let stack ← acts.reduce r stack
    acts.perform steps stack

variable [LawfulMonad m]

theorem Actions.perform_append (acts : Actions m α) (steps₁ steps₂ : List Reduction)
    (stack : List α) :
    acts.perform (steps₁ ++ steps₂) stack =
      (acts.perform steps₁ stack >>= acts.perform steps₂) := by
  induction steps₁ generalizing stack with
  | nil => simp [perform]
  | cons r steps ih => simp [perform, ih]

theorem Actions.perform_singleton (acts : Actions m α) (r : Reduction) (stack : List α) :
    acts.perform [r] stack = acts.reduce r stack := by
  simp [perform]

/-! ## 3. The list does what the fold does -/

/-- The reductions of the tree leave its value on the stack. -/
def Actions.Performs (acts : Actions m α) (t : Tree) : Prop :=
  ∀ stack : List α, acts.perform t.reductions stack = do
    let x ← acts.fold t
    return x :: stack

/-- A call that comes after one part has its value on top of the stack. -/
theorem Actions.Performs.one {acts : Actions m α} {t : Tree} (ht : acts.Performs t)
    (r : Reduction) (stack : List α) :
    acts.perform (t.reductions ++ [r]) stack = (do
      let x ← acts.fold t
      acts.reduce r (x :: stack)) := by
  rw [perform_append, ht stack]
  simp [perform_singleton]

/-- A call that comes after two parts has their values on top of the stack. -/
theorem Actions.Performs.two {acts : Actions m α} {left right : Tree}
    (hleft : acts.Performs left) (hright : acts.Performs right) (r : Reduction)
    (stack : List α) :
    acts.perform (left.reductions ++ right.reductions ++ [r]) stack = (do
      let x ← acts.fold left
      let y ← acts.fold right
      acts.reduce r (y :: x :: stack)) := by
  rw [List.append_assoc, perform_append, hleft stack]
  simp [hright.one]

mutual

/-- **The reductions of a tree do what its fold does**, and leave its value on the stack. -/
theorem Actions.perform_reductions (acts : Actions m α) : (t : Tree) → (stack : List α) →
    acts.perform t.reductions stack = do
      let x ← acts.fold t
      return x :: stack
  | .literal t, stack => by
    simp [Tree.reductions, perform, reduce, fold]
  | .binary left right o, stack => by
    have hleft : acts.Performs left := acts.perform_reductions left
    have hright : acts.Performs right := acts.perform_reductions right
    simp [Tree.reductions, -List.append_assoc, hleft.two hright, reduce, fold]
  | .unary inner o, stack => by
    have hinner : acts.Performs inner := acts.perform_reductions inner
    simp [Tree.reductions, hinner.one, reduce, fold]
  | .suffix inner o, stack => by
    have hinner : acts.Performs inner := acts.perform_reductions inner
    simp [Tree.reductions, hinner.one, reduce, fold]
  | .dice none sides, stack => by
    have hsides : acts.Performs sides := acts.perform_reductions sides
    simp [Tree.reductions, hsides.one, reduce, fold]
  | .dice (some num) sides, stack => by
    have hnum : acts.Performs num := acts.perform_reductions num
    have hsides : acts.Performs sides := acts.perform_reductions sides
    simp [Tree.reductions, -List.append_assoc, hnum.two hsides, reduce, fold]
  | .keep k target amount, stack => by
    have htarget : acts.Performs target := acts.perform_reductions target
    have hamount : acts.Performs amount := acts.perform_reductions amount
    simp [Tree.reductions, -List.append_assoc, htarget.two hamount, reduce, fold]
  | .explode target faces, stack => by
    have htarget : acts.Performs target := acts.perform_reductions target
    have hfaces : acts.Performs faces := acts.perform_reductions faces
    simp [Tree.reductions, -List.append_assoc, htarget.two hfaces, reduce, fold]
  | .array items, stack => by
    have h := acts.perform_elements items [] stack
    simp only [List.length_nil, Nat.zero_add, List.reverse_nil, List.nil_append] at h
    simp only [Tree.reductions, h, fold]
    simp
  | .index target position, stack => by
    have htarget : acts.Performs target := acts.perform_reductions target
    have hposition : acts.Performs position := acts.perform_reductions position
    simp [Tree.reductions, -List.append_assoc, htarget.two hposition, reduce, fold]

/-- The elements of an array literal come to lie on the stack behind those that are there already,
`done`, and the array takes them all. -/
theorem Actions.perform_elements (acts : Actions m α) : (items : List Tree) →
    (done stack : List α) →
    acts.perform (reductionsOf items ++ [.array (done.length + items.length)])
        (done.reverse ++ stack) = do
      let xs ← acts.foldAll items
      let x ← acts.array (done ++ xs)
      return x :: stack
  | [], done, stack => by
    simp [reductionsOf, perform, reduce, foldAll]
  | t :: items, done, stack => by
    have ih (x : α) := acts.perform_elements items (done ++ [x]) stack
    simp only [List.length_append, List.length_singleton, List.reverse_append,
      List.reverse_singleton, List.cons_append, List.nil_append,
      List.append_assoc, Nat.add_assoc] at ih
    simp [reductionsOf, perform_append acts t.reductions, acts.perform_reductions t, foldAll,
      Nat.add_comm items.length, ih]

end

/-- The reductions of some trees leave their values on the stack, the last one on top. -/
theorem Actions.perform_reductionsOf (acts : Actions m α) (trees : List Tree) (stack : List α) :
    acts.perform (reductionsOf trees) stack = do
      let xs ← acts.foldAll trees
      return xs.reverse ++ stack := by
  induction trees generalizing stack with
  | nil => simp [reductionsOf, perform, foldAll]
  | cons t trees ih => simp [reductionsOf, perform_append, acts.perform_reductions, foldAll, ih]

end Machine

end DiceNotation
