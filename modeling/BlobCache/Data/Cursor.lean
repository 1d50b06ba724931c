import Mathlib.Algebra.Order.Ring.Nat
import Mathlib.Data.List.Basic

/-!
Code that reads a list of symbols through a cursor. A read may fail with an
error or, when it indexes outside the list, abort.

`Accepts p G` says that `p` takes from the list exactly the symbols that the
relation `G` allows: whatever stands before the cursor and whatever follows. A
reader with a relation therefore decides its own end, and two values with their
symbols cannot start the same list.
-/

namespace BlobCache

inductive Outcome (ε α : Type) where
  | ok (a : α)
  | fail (e : ε)
  | crash
  deriving DecidableEq, Repr

namespace Outcome

variable {ε α β : Type}

def bind (x : Outcome ε α) (f : α → Outcome ε β) : Outcome ε β :=
  match x with
  | .ok a => f a
  | .fail e => .fail e
  | .crash => .crash

@[simp] theorem bind_ok (a : α) (f : α → Outcome ε β) : (ok a).bind f = f a := rfl

theorem bind_eq_ok {x : Outcome ε α} {f : α → Outcome ε β} {b : β} :
    x.bind f = .ok b ↔ ∃ a, x = .ok a ∧ f a = .ok b := by
  cases x with
  | ok a => simp
  | fail e => simp [bind]
  | crash => simp [bind]

theorem bind_ne_crash {x : Outcome ε α} {f : α → Outcome ε β} (hx : x ≠ .crash)
    (hf : ∀ a, x = .ok a → f a ≠ .crash) : x.bind f ≠ .crash := by
  cases x with
  | ok a => exact hf a rfl
  | fail e => simp [bind]
  | crash => exact absurd rfl hx

end Outcome

/-- The list and the cursor give the value with the cursor after it. -/
def Reader (σ ε α : Type) := List σ → Nat → Outcome ε (α × Nat)

namespace Reader

variable {σ ε α β : Type}

instance : Monad (Reader σ ε) where
  pure a := fun _ i => .ok (a, i)
  bind p f := fun data i => (p data i).bind fun r => f r.1 data r.2

def fail (e : ε) : Reader σ ε α := fun _ _ => .fail e

/-- `ok_or(e)?` -/
def ofOption (o : Option α) (e : ε) : Reader σ ε α :=
  match o with
  | some a => pure a
  | none => fail e

/-- The symbol under the cursor, without a check that there is one. -/
def item : Reader σ ε σ := fun data i =>
  match data[i]? with
  | some a => .ok (a, i + 1)
  | none => .crash

/-- The next `n` symbols, without a check that there are so many. -/
def items (n : Nat) : Reader σ ε (List σ) := fun data i =>
  if i + n ≤ data.length then .ok ((data.drop i).take n, i + n) else .crash

theorem bind_run (p : Reader σ ε α) (f : α → Reader σ ε β) (data : List σ) (i : Nat) :
    (p >>= f) data i = (p data i).bind fun r => f r.1 data r.2 := rfl

theorem pure_run (a : α) (data : List σ) (i : Nat) :
    (pure a : Reader σ ε α) data i = .ok (a, i) := rfl

theorem item_run (pre : List σ) (a : σ) (t : List σ) :
    (item : Reader σ ε σ) (pre ++ a :: t) pre.length = .ok (a, pre.length + 1) := by
  simp [item]

theorem items_run (pre s t : List σ) :
    (items s.length : Reader σ ε (List σ)) (pre ++ (s ++ t)) pre.length =
      .ok (s, pre.length + s.length) := by
  simp [items]

end Reader

/-- The reader accepts exactly the symbols of `G`, at any place in a list, and
never indexes outside it. -/
structure Accepts {σ ε α : Type} (p : Reader σ ε α) (G : α → List σ → Prop) : Prop where
  sound : ∀ pre rest a j, p (pre ++ rest) pre.length = .ok (a, j) →
    ∃ s t, rest = s ++ t ∧ j = (pre ++ s).length ∧ G a s
  complete : ∀ pre s t a, G a s → p (pre ++ (s ++ t)) pre.length = .ok (a, (pre ++ s).length)
  safe : ∀ pre rest, p (pre ++ rest) pre.length ≠ .crash

namespace Accepts

variable {σ ε α β : Type} {p : Reader σ ε α} {G : α → List σ → Prop}

theorem congr {H : α → List σ → Prop} (hp : Accepts p G) (hGH : ∀ a s, G a s ↔ H a s) :
    Accepts p H where
  sound pre rest a j hrun := by
    obtain ⟨s, t, hrest, hj, hG⟩ := hp.sound pre rest a j hrun
    exact ⟨s, t, hrest, hj, (hGH a s).mp hG⟩
  complete pre s t a hH := hp.complete pre s t a ((hGH a s).mpr hH)
  safe := hp.safe

protected theorem pure (a : α) :
    Accepts (pure a : Reader σ ε α) fun b s => b = a ∧ s = [] where
  sound pre rest b j hrun := by
    rw [Reader.pure_run] at hrun
    cases hrun
    exact ⟨[], rest, rfl, by simp, rfl, rfl⟩
  complete pre s t b h := by
    obtain ⟨rfl, rfl⟩ := h
    simp [Reader.pure_run]
  safe pre rest h := by cases h

/-- One reader after the other reads the symbols of the one and then those of
the other. -/
protected theorem bind {f : α → Reader σ ε β} {H : α → β → List σ → Prop} (hp : Accepts p G)
    (hf : ∀ a, Accepts (f a) (H a)) :
    Accepts (p >>= f) fun b s => ∃ a s1 s2, s = s1 ++ s2 ∧ G a s1 ∧ H a b s2 where
  sound pre rest b j hrun := by
    rw [Reader.bind_run] at hrun
    obtain ⟨⟨a, i⟩, hfirst, hthen⟩ := Outcome.bind_eq_ok.mp hrun
    obtain ⟨s1, t1, rfl, rfl, hG⟩ := hp.sound pre rest a i hfirst
    rw [← List.append_assoc] at hthen
    obtain ⟨s2, t2, rfl, rfl, hH⟩ := (hf a).sound (pre ++ s1) t1 b j hthen
    exact ⟨s1 ++ s2, t2, by simp, by simp, a, s1, s2, rfl, hG, hH⟩
  complete pre s t b h := by
    obtain ⟨a, s1, s2, rfl, hG, hH⟩ := h
    have hfirst := hp.complete pre s1 (s2 ++ t) a hG
    have hthen := (hf a).complete (pre ++ s1) s2 t b hH
    rw [Reader.bind_run, List.append_assoc s1, hfirst, Outcome.bind_ok]
    simpa using hthen
  safe pre rest := by
    rw [Reader.bind_run]
    apply Outcome.bind_ne_crash (hp.safe pre rest)
    rintro ⟨a, i⟩ hfirst
    obtain ⟨s1, t1, rfl, rfl, -⟩ := hp.sound pre rest a i hfirst
    rw [← List.append_assoc]
    exact (hf a).safe (pre ++ s1) t1

/-- A check that fails on `c`. -/
theorem check {c : Prop} [Decidable c] (e : ε) (hp : Accepts p G) :
    Accepts (if c then Reader.fail e else p) fun a s => ¬c ∧ G a s := by
  by_cases hc : c
  · rw [if_pos hc]
    constructor
    · intro pre rest a j hrun
      cases hrun
    · intro pre s t a h
      exact absurd hc h.1
    · intro pre rest h
      cases h
  · rw [if_neg hc]
    exact hp.congr fun a s => by simp [hc]

/-- A value that may be missing takes no symbols. -/
theorem ofOption (o : Option α) (e : ε) :
    Accepts (Reader.ofOption o e : Reader σ ε α) fun a s => o = some a ∧ s = [] := by
  cases o with
  | some a =>
      apply (Accepts.pure a).congr
      intro b s
      rw [Option.some.injEq, eq_comm]
  | none =>
      constructor
      · intro pre rest a j hrun
        cases hrun
      · intro pre s t a h
        cases h.1
      · intro pre rest h
        cases h

/-- What a reader takes is settled by the list alone. -/
theorem unique (hp : Accepts p G) {a b : α} {s s' t t' : List σ} (ha : G a s) (hb : G b s')
    (heq : s ++ t = s' ++ t') : a = b ∧ s = s' := by
  have h := hp.complete [] s t a ha
  rw [heq, hp.complete [] s' t' b hb] at h
  simp only [Outcome.ok.injEq, Prod.mk.injEq, List.nil_append] at h
  exact ⟨h.1.symm, (List.append_inj heq h.2.symm).1⟩

end Accepts

end BlobCache
