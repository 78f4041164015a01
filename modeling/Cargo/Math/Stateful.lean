import Cargo.Math.Iteration

/-!
# A state that may not matter

A computation with a state is compared with a plain one. In one direction the plain computation
is known to succeed, and the other does so as well and gives a result that is related. In the
other direction the computation with the state has succeeded and its state is good at the end;
where that cannot be unless it was good all along, and a good state does not matter, its result is
the plain one.

## Main definitions

* `Refines` — if the plain computation succeeds then so does the one with the state
* `IsPlain` — if the state is good at the end then the result is the plain one
-/

set_option autoImplicit false

namespace Cargo.Math

variable {σ E α β γ δ : Type}

/-- If the plain computation succeeds, then so does the one with the state; it keeps `I`, and the
results are related. -/
def Refines (I : σ → Prop) (Q : α → β → Prop) (x : StateT σ (Except E) α) (plain : Except E β) :
    Prop :=
  ∀ s b, I s → plain = .ok b → ∃ a s', x.run s = .ok (a, s') ∧ I s' ∧ Q a b

namespace Refines

variable {I : σ → Prop} {Q : α → β → Prop} {Q' : γ → δ → Prop}

theorem lift (x : Except E α) : Refines I Eq (liftM x : StateT σ (Except E) α) x := by
  intro s b hs hx
  exact ⟨b, s, bind_eq_ok.mpr ⟨b, hx, rfl⟩, hs, rfl⟩

theorem pure {a : α} {b : β} (h : Q a b) :
    Refines I Q (Pure.pure a : StateT σ (Except E) α) (.ok b) := by
  intro s b' hs hb
  cases hb
  exact ⟨a, s, rfl, hs, h⟩

theorem bind {x : StateT σ (Except E) α} {plain : Except E β} {f : α → StateT σ (Except E) γ}
    {f' : β → Except E δ} (hx : Refines I Q x plain)
    (hf : ∀ a b, plain = .ok b → Q a b → Refines I Q' (f a) (f' b)) :
    Refines I Q' (x >>= f) (plain >>= f') := by
  intro s d hs hd
  obtain ⟨b, hb, hd⟩ := bind_eq_ok.mp hd
  obtain ⟨a, t, ha, ht, hab⟩ := hx s b hs hb
  obtain ⟨c, u, hc, hu, hcd⟩ := hf a b hb hab t d ht hd
  exact ⟨c, u, bind_eq_ok.mpr ⟨(a, t), ha, hc⟩, hu, hcd⟩

/-- Both take the same branch. -/
theorem ite {c : Prop} [Decidable c] {x y : StateT σ (Except E) α} {x' y' : Except E β}
    (hx : c → Refines I Q x x') (hy : ¬ c → Refines I Q y y') :
    Refines I Q (if c then x else y) (if c then x' else y') := by
  split_ifs with hc
  · exact hx hc
  · exact hy hc

theorem foldlM {f : α → γ → StateT σ (Except E) α} {f' : β → γ → Except E β} {l : List γ}
    (hf : ∀ a b, ∀ c ∈ l, Q a b → Refines I Q (f a c) (f' b c)) {a : α} {b : β} (hab : Q a b) :
    Refines I Q (l.foldlM f a) (l.foldlM f' b) := by
  induction l generalizing a b with
  | nil => exact pure hab
  | cons c l ih =>
    rw [List.foldlM_cons, List.foldlM_cons]
    refine (hf a b c List.mem_cons_self hab).bind fun a' b' _ hab' => ?_
    exact ih (fun a b c hc => hf a b c (List.mem_cons_of_mem _ hc)) hab'

end Refines

/-- If the state is good at the end, then it was good at the start, and the result is the plain
one. -/
def IsPlain (Good : σ → Prop) (x : StateT σ (Except E) α) (plain : Except E α) : Prop :=
  ∀ s a s', x.run s = .ok (a, s') → Good s' → Good s ∧ plain = .ok a

namespace IsPlain

variable {Good : σ → Prop}

theorem lift (x : Except E α) : IsPlain Good (liftM x : StateT σ (Except E) α) x := by
  intro s a s' h hgood
  obtain ⟨b, hb, h⟩ := bind_eq_ok.mp h
  cases h
  exact ⟨hgood, hb⟩

theorem pure (a : α) : IsPlain Good (Pure.pure a : StateT σ (Except E) α) (.ok a) := by
  intro s b s' h hgood
  cases h
  exact ⟨hgood, rfl⟩

theorem bind {x : StateT σ (Except E) α} {plain : Except E α} {f : α → StateT σ (Except E) β}
    {f' : α → Except E β} (hx : IsPlain Good x plain) (hf : ∀ a, IsPlain Good (f a) (f' a)) :
    IsPlain Good (x >>= f) (plain >>= f') := by
  intro s b s' h hgood
  obtain ⟨⟨a, t⟩, hstep, hrest⟩ := bind_eq_ok.mp h
  obtain ⟨hgood', hb⟩ := hf a t b s' hrest hgood
  obtain ⟨hgood'', ha⟩ := hx s a t hstep hgood'
  exact ⟨hgood'', bind_eq_ok.mpr ⟨a, ha, hb⟩⟩

theorem ite {c : Prop} [Decidable c] {x y : StateT σ (Except E) α} {x' y' : Except E α}
    (hx : IsPlain Good x x') (hy : IsPlain Good y y') :
    IsPlain Good (if c then x else y) (if c then x' else y') := by
  split_ifs
  · exact hx
  · exact hy

theorem foldlM {f : α → β → StateT σ (Except E) α} {f' : α → β → Except E α}
    (hf : ∀ a b, IsPlain Good (f a b) (f' a b)) (l : List β) (a : α) :
    IsPlain Good (l.foldlM f a) (l.foldlM f' a) := by
  induction l generalizing a with
  | nil => exact pure a
  | cons b l ih =>
    rw [List.foldlM_cons, List.foldlM_cons]
    exact (hf a b).bind ih

end IsPlain

end Cargo.Math
