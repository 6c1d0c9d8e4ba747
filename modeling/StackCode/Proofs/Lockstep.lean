/-
Two runs side by side.

To compare two runs of one program on different inputs, both are taken step by step: as long
as the states are related they do the same, and in the end they either both finish, with
related answers and related states, or both fail in the same way.  `EndAlike` is this for
the two results and `Lockstep` for the two steps.  The state that a failed run leaves behind
is of no interest.

The rules are those of a program logic, except that everything comes in pairs: one rule for
each way of putting steps together, and `conseq` to pass from one description of the states
to another.
-/
import Mathlib.Data.List.Forall2
import StackCode.Proofs.Sequencing

namespace StackCode

/-- Two runs end alike. -/
inductive EndAlike {ε σ α : Type} (same : ε → ε → Prop) (answer : α → α → Prop)
    (post : σ → σ → Prop) : EStateM.Result ε σ α → EStateM.Result ε σ α → Prop where
  | ok {a a' : α} {t t' : σ} (ha : answer a a') (ht : post t t') :
      EndAlike same answer post (.ok a t) (.ok a' t')
  | error {e e' : ε} {t t' : σ} (he : same e e') :
      EndAlike same answer post (.error e t) (.error e' t')

/-- From related states two steps end alike. -/
def Lockstep {ε σ α : Type} (same : ε → ε → Prop) (pre : σ → σ → Prop) (x x' : EStateM ε σ α)
    (answer : α → α → Prop) (post : σ → σ → Prop) : Prop :=
  ∀ ⦃s s' : σ⦄, pre s s' → EndAlike same answer post (x s) (x' s')

namespace Lockstep

variable {ε σ α β : Type} {same : ε → ε → Prop} {pre pre' mid post post' : σ → σ → Prop}
variable {x x' : EStateM ε σ α} {f f' : α → EStateM ε σ β}
variable {answer answer' : α → α → Prop} {answer₂ : β → β → Prop}

theorem bind (hx : Lockstep same pre x x' answer mid)
    (hf : ∀ {a a'}, answer a a' → Lockstep same mid (f a) (f' a') answer₂ post) :
    Lockstep same pre (x >>= f) (x' >>= f') answer₂ post := by
  intro s s' hs
  have hends := hx hs
  show EndAlike same answer₂ post (EStateM.bind x f s) (EStateM.bind x' f' s')
  unfold EStateM.bind
  generalize x s = r, x' s' = r' at hends
  cases hends with
  | ok ha ht => exact hf ha ht
  | error he => exact .error he

theorem pure {a a' : α} (ha : answer a a') (h : ∀ {s s'}, pre s s' → post s s') :
    Lockstep same pre (Pure.pure a) (Pure.pure a') answer post :=
  fun _ _ hs => .ok ha (h hs)

theorem throw {e e' : ε} (he : same e e') :
    Lockstep same pre (MonadExcept.throw e) (MonadExcept.throw e') answer post :=
  fun _ _ _ => .error he

theorem update {g g' : σ → σ} (h : ∀ {s s'}, pre s s' → post (g s) (g' s')) :
    Lockstep same pre (modify g) (modify g') (fun _ _ => True) post :=
  fun _ _ hs => .ok trivial (h hs)

theorem map {g g' : α → β} (hx : Lockstep same pre x x' answer post)
    (hg : ∀ {a a'}, answer a a' → answer₂ (g a) (g' a')) :
    Lockstep same pre (g <$> x) (g' <$> x') answer₂ post := by
  intro s s' hs
  have hends := hx hs
  show EndAlike same answer₂ post (EStateM.map g x s) (EStateM.map g' x' s')
  unfold EStateM.map
  generalize x s = r, x' s' = r' at hends
  cases hends with
  | ok ha ht => exact .ok (hg ha) ht
  | error he => exact .error he

/-- More may be known before, and less may be asked for after. -/
theorem conseq (hx : Lockstep same pre x x' answer post) (hpre : ∀ {s s'}, pre' s s' → pre s s')
    (hanswer : ∀ {a a'}, answer a a' → answer' a a')
    (hpost : ∀ {s s'}, post s s' → post' s s') : Lockstep same pre' x x' answer' post' := by
  intro s s' hs
  have hends := hx (hpre hs)
  generalize x s = r, x' s' = r' at hends
  cases hends with
  | ok ha ht => exact .ok (hanswer ha) (hpost ht)
  | error he => exact .error he

end Lockstep

/-! ### Answers without a state

`ExceptAlike` is the same for functions that have no state to relate.  With equal answers
and errors that `g` cannot tell apart it comes down to an equation (`mapError_eq`).
-/

/-- Two computations answer alike: both with related answers, or both with the same error. -/
inductive ExceptAlike {ε α : Type} (same : ε → ε → Prop) (answer : α → α → Prop) :
    Except ε α → Except ε α → Prop where
  | ok {a a' : α} (ha : answer a a') : ExceptAlike same answer (.ok a) (.ok a')
  | error {e e' : ε} (he : same e e') : ExceptAlike same answer (.error e) (.error e')

namespace ExceptAlike

variable {ε α β : Type} {same : ε → ε → Prop} {answer : α → α → Prop} {answer₂ : β → β → Prop}
variable {x x' : Except ε α}

theorem bind {f f' : α → Except ε β} (hx : ExceptAlike same answer x x')
    (hf : ∀ {a a'}, answer a a' → ExceptAlike same answer₂ (f a) (f' a')) :
    ExceptAlike same answer₂ (x >>= f) (x' >>= f') := by
  cases hx with
  | ok ha => exact hf ha
  | error he => exact .error he

theorem mapM {xs xs' : List β} {f f' : β → Except ε α} (hxs : List.Forall₂ answer₂ xs xs')
    (hf : ∀ {b b'}, answer₂ b b' → ExceptAlike same answer (f b) (f' b')) :
    ExceptAlike same (List.Forall₂ answer) (xs.mapM f) (xs'.mapM f') := by
  induction hxs with
  | nil =>
      rw [List.mapM_nil, List.mapM_nil]
      exact .ok .nil
  | cons hb _ ih =>
      rw [List.mapM_cons, List.mapM_cons]
      exact (hf hb).bind fun ha => ih.bind fun has => .ok (.cons ha has)

theorem mapError {δ : Type} {g : ε → δ} {same₂ : δ → δ → Prop} (hx : ExceptAlike same answer x x')
    (hg : ∀ {e e'}, same e e' → same₂ (g e) (g e')) :
    ExceptAlike same₂ answer (x.mapError g) (x'.mapError g) := by
  cases hx with
  | ok ha => exact .ok ha
  | error he => exact .error (hg he)

theorem mapError_eq {δ : Type} {g : ε → δ} (hx : ExceptAlike (fun e e' => g e = g e') Eq x x') :
    x.mapError g = x'.mapError g := by
  cases hx with
  | ok ha => rw [ha]
  | error he => exact congrArg Except.error he

end ExceptAlike

end StackCode
