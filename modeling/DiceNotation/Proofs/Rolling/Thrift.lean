/-
# What rolling dice draws

Work is **thrifty** when it gets by on a number of draws that it is allowed (`Thrifty`).  However it
ends, it has drawn no more; and if it ends well, what is set aside for the value that it gives is
still left of the allowance.  Setting draws aside is what makes the notion compose: the rest of the
work lives on what its beginning has left (`Thrifty.bind`).

Without triggers a die is drawn once, so that a pool gets by on as many draws as it has dice
(`Pool.within_roll`).
-/
import DiceNotation.Rolling
import DiceNotation.Proofs.Effects

namespace DiceNotation

/-! ## 1. Thrifty work -/

/-- Work that, begun in the state `s`, gets by on `allowed` draws and leaves `left a` of them over
when it gives the value `a`. -/
structure Thrifty {σ α : Type} (drawn : σ → Nat) (allowed : Nat) (left : α → Nat)
    (work : EStateM Fault σ α) (s : σ) : Prop where
  of_ok : ∀ {a : α} {s' : σ}, work s = .ok a s' → drawn s' + left a ≤ drawn s + allowed
  of_error : ∀ {f : Fault} {s' : σ}, work s = .error f s' → drawn s' ≤ drawn s + allowed

namespace Thrifty

variable {σ α β : Type} {drawn : σ → Nat} {allowed : Nat} {left : α → Nat} {s : σ}

theorem pure {a : α} (h : left a ≤ allowed) : Thrifty drawn allowed left (Pure.pure a) s where
  of_ok hok := by
    cases hok
    exact Nat.add_le_add_left h _
  of_error herror := by cases herror

theorem throw (f : Fault) : Thrifty drawn allowed left (throw f : EStateM Fault σ α) s where
  of_ok hok := by cases hok
  of_error herror := by
    cases herror
    exact Nat.le_add_right _ _

theorem get : Thrifty drawn allowed (fun _ => allowed) (get : EStateM Fault σ σ) s where
  of_ok hok := by
    cases hok
    exact Nat.le_refl _
  of_error herror := by cases herror

/-- The rest of some work lives on what its beginning has left. -/
theorem bind {left' : β → Nat} {x : EStateM Fault σ α} {f : α → EStateM Fault σ β}
    (hx : Thrifty drawn allowed left x s)
    (hf : ∀ a s', x s = .ok a s' → Thrifty drawn (left a) left' (f a) s') :
    Thrifty drawn allowed left' (x >>= f) s := by
  cases hrun : x s with
  | ok a s₁ =>
    have hbegin := hx.of_ok hrun
    have hrest := hf a s₁ hrun
    have hbind : (x >>= f) s = f a s₁ := bind_of_eq_ok hrun
    constructor
    · intro b s' h
      have := hrest.of_ok (hbind.symm.trans h)
      omega
    · intro e s' h
      have := hrest.of_error (hbind.symm.trans h)
      omega
  | error e s₁ =>
    have hbind : (x >>= f) s = .error e s₁ := bind_of_eq_error hrun
    constructor
    · intro b s' h
      cases hbind.symm.trans h
    · intro e' s' h
      cases hbind.symm.trans h
      exact hx.of_error hrun

/-- What is allowed beyond the needs of some work is left over. -/
theorem frame {x : EStateM Fault σ α} (hx : Thrifty drawn allowed left x s) (rest : Nat) :
    Thrifty drawn (rest + allowed) (fun a => rest + left a) x s where
  of_ok h := by
    have := hx.of_ok h
    omega
  of_error h := by
    have := hx.of_error h
    omega

theorem mono {allowed' : Nat} {left' : α → Nat} {x : EStateM Fault σ α}
    (hx : Thrifty drawn allowed left x s) (hallowed : allowed ≤ allowed')
    (hleft : ∀ a, left' a ≤ left a) : Thrifty drawn allowed' left' x s where
  of_ok {a s'} h := by
    have := hx.of_ok h
    have := hleft a
    omega
  of_error h := by
    have := hx.of_error h
    omega

/-- Work that leaves the draws alone. -/
theorem of_same {x : EStateM Fault σ α} (hok : ∀ a s', x s = .ok a s' → drawn s' = drawn s)
    (herror : ∀ f s', x s = .error f s' → drawn s' = drawn s) :
    Thrifty drawn 0 (fun _ => 0) x s where
  of_ok h := Nat.le_of_eq (hok _ _ h)
  of_error h := Nat.le_of_eq (herror _ _ h)

end Thrifty

/-! ## 2. Dice -/

/-- Work on a tray that gets by on some draws, and leaves none of them over. -/
abbrev Rolling.Within {α : Type} (work : Rolling α) (allowed : Nat) (t : Tray) : Prop :=
  Thrifty Tray.drawn allowed (fun _ => 0) work t

theorem within_draw (n : Nat) (pos : 0 < n) (t : Tray) : (draw n pos).Within 1 t := by
  constructor
  · intro i t' h
    obtain ⟨source, -, rfl⟩ := draw_eq_ok_iff.mp h
    exact Nat.le_refl _
  · intro f t' h
    obtain ⟨-, -, rfl⟩ := draw_eq_error_iff.mp h
    exact Nat.le_add_right _ _

/-- Work that is paid for draws nothing. -/
theorem within_onTray {α : Type} (work : Metered α) (t : Tray) : work.onTray.Within 0 t := by
  refine .of_same (fun a t' h => ?_) fun f t' h => ?_
  · obtain ⟨budget, -, rfl⟩ := Metered.onTray_eq_ok_iff.mp h
    rfl
  · obtain ⟨budget, -, rfl⟩ := Metered.onTray_eq_error_iff.mp h
    rfl

theorem within_rollOn (sides : Array Value) (pos : 0 < sides.size) (fuel : Nat)
    (total : Option Value) (t : Tray) : (rollOn sides pos [] fuel total).Within 1 t := by
  cases fuel with
  | zero => exact .throw _
  | succ fuel =>
    rw [rollOn]
    refine (within_draw _ pos t).bind fun i t₁ _ => ?_
    refine (within_onTray (addTo total sides[i]) t₁).bind fun v t₂ _ => ?_
    rw [if_neg (by simp [Pool.triggered])]
    exact .pure (Nat.le_refl 0)

namespace Pool

variable {p : Pool} (h : p.triggers = [])

include h

theorem within_rollDie (t : Tray) : p.rollDie.Within 1 t := by
  rw [rollDie]
  split
  · next pos =>
    refine Thrifty.get.bind fun t₁ t₂ _ => ?_
    rw [h]
    exact within_rollOn p.sides pos _ none t₂
  · exact .throw _

theorem within_rollSum (n : Nat) (total : Option Value) (t : Tray) :
    (p.rollSum n total).Within n t := by
  induction n generalizing total t with
  | zero => exact .pure (Nat.le_refl 0)
  | succ n ih =>
    rw [rollSum]
    refine ((within_rollDie h t).frame n).bind fun v t₁ _ => ?_
    refine ((within_onTray (addTo total v) t₁).frame n).bind fun w t₂ _ => ?_
    exact ((within_onTray payStep t₂).frame n).bind fun _ t₃ _ => ih (some w) t₃

theorem within_rollEach (n : Nat) (done : List Value) (t : Tray) :
    (p.rollEach n done).Within n t := by
  induction n generalizing done t with
  | zero => exact .pure (Nat.le_refl 0)
  | succ n ih =>
    rw [rollEach]
    refine ((within_rollDie h t).frame n).bind fun v t₁ _ => ?_
    exact ((within_onTray payStep t₁).frame n).bind fun _ t₂ _ => ih (v :: done) t₂

/-- **A pool without triggers draws each of its dice once**, at the most. -/
theorem within_roll (t : Tray) : p.roll.Within p.num.toNat t := by
  rw [roll]
  split
  · exact .pure (Nat.zero_le _)
  · split
    · exact within_rollSum h _ none t
    · exact (within_rollEach h _ [] t).bind fun rolls t₁ _ => within_onTray _ t₁

end Pool

end DiceNotation
