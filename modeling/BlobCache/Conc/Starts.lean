import BlobCache.Conc.Program

/-!
The jobs that a program can start and the values it can return, for some
responses to its operations. Where `Every` says what a program does whatever it
is told, these say what it does when it is told the right things.
-/

namespace BlobCache.Conc.Program

variable {E : Effect} {α β : Type}

def Spawns (j : E.Job) : Program E α → Prop
  | .ret _ => False
  | .op _ k => ∃ r, (k r).Spawns j
  | .spawn i k => i = j ∨ ∃ h, (k h).Spawns j
  | .join _ k => ∃ v, (k v).Spawns j

def Returns (a : α) : Program E α → Prop
  | .ret b => b = a
  | .op _ k => ∃ r, (k r).Returns a
  | .spawn _ k => ∃ h, (k h).Returns a
  | .join _ k => ∃ v, (k v).Returns a

variable {j : E.Job}

/-- What can be started in some branch, before or after the branch returns. -/
private theorem exists_branch {ι : Type} {P : ι → Prop} {Q : ι → α → Prop} {R : α → Prop} :
    (∃ r, P r ∨ ∃ a, Q r a ∧ R a) ↔ (∃ r, P r) ∨ ∃ a, (∃ r, Q r a) ∧ R a := by
  constructor
  · rintro ⟨r, h | ⟨a, ha, h⟩⟩
    · exact .inl ⟨r, h⟩
    · exact .inr ⟨a, ⟨r, ha⟩, h⟩
  · rintro (⟨r, h⟩ | ⟨a, ⟨r, ha⟩, h⟩)
    · exact ⟨r, .inl h⟩
    · exact ⟨r, .inr ⟨a, ha, h⟩⟩

theorem spawns_bind {p : Program E α} {f : α → Program E β} :
    (p >>= f).Spawns j ↔ p.Spawns j ∨ ∃ a, p.Returns a ∧ (f a).Spawns j := by
  induction p with
  | ret a =>
      change (f a).Spawns j ↔ False ∨ ∃ b, a = b ∧ (f b).Spawns j
      simp
  | op o k ih =>
      change (∃ r, (k r >>= f).Spawns j) ↔ _
      simp only [ih]
      exact exists_branch
  | spawn i k ih =>
      change (i = j ∨ ∃ h, (k h >>= f).Spawns j) ↔ (i = j ∨ ∃ h, (k h).Spawns j) ∨ _
      simp only [ih, or_assoc]
      exact or_congr_right exists_branch
  | join hd k ih =>
      change (∃ v, (k v >>= f).Spawns j) ↔ _
      simp only [ih]
      exact exists_branch

/-- What a sequence returns, its last part returns. -/
theorem Returns.of_bind {p : Program E α} {f : α → Program E β} {b : β}
    (h : (p >>= f).Returns b) : ∃ a, p.Returns a ∧ (f a).Returns b := by
  induction p with
  | ret a => exact ⟨a, rfl, h⟩
  | op o k ih =>
      obtain ⟨r, hr⟩ := h
      obtain ⟨a, ha, hb⟩ := ih r hr
      exact ⟨a, ⟨r, ha⟩, hb⟩
  | spawn i k ih =>
      obtain ⟨hd, hr⟩ := h
      obtain ⟨a, ha, hb⟩ := ih hd hr
      exact ⟨a, ⟨hd, ha⟩, hb⟩
  | join hd k ih =>
      obtain ⟨v, hr⟩ := h
      obtain ⟨a, ha, hb⟩ := ih v hr
      exact ⟨a, ⟨v, ha⟩, hb⟩

end BlobCache.Conc.Program
