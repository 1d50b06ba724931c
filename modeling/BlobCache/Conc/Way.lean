import BlobCache.Conc.Program

/-!
Where a program is bound for. A way names operations that end it and operations
that may be passed before; a program is along the way when every path of it, as
far as the responses are reckoned with, passes only such operations until it
comes to one that ends the way, or returns a value as required.
-/

namespace BlobCache.Conc

structure Way (E : Effect) where
  goal : E.Op → Prop
  pass : E.Op → Prop
  resp : (o : E.Op) → E.Resp o → Prop

namespace Program

variable {E : Effect} {W : Way E} {α β : Type}

def Along (W : Way E) (Q : α → Prop) : Program E α → Prop
  | .ret a => Q a
  | .op o k => W.goal o ∨ (W.pass o ∧ ∀ r, W.resp o r → (k r).Along W Q)
  | .spawn _ k => ∀ h, (k h).Along W Q
  | .join _ k => ∀ v, (k v).Along W Q

/-- No path returns before it comes to the end of the way. -/
def Reaches (W : Way E) (p : Program E α) : Prop := p.Along W fun _ => False

theorem Along.bind {Q : α → Prop} {R : β → Prop} {p : Program E α} {f : α → Program E β}
    (h : p.Along W Q) (hf : ∀ a, Q a → (f a).Along W R) : (p.bind f).Along W R := by
  induction p with
  | ret a => exact hf a h
  | op o k ih =>
      rcases h with hgoal | ⟨hpass, hrest⟩
      · exact .inl hgoal
      · exact .inr ⟨hpass, fun r hr => ih r (hrest r hr)⟩
  | spawn j k ih => exact fun hd => ih hd (h hd)
  | join hd k ih => exact fun v => ih v (h v)

theorem Reaches.bind {p : Program E α} (h : p.Reaches W) (f : α → Program E β) :
    (p.bind f).Reaches W :=
  Along.bind h fun _ ha => ha.elim

end Program

end BlobCache.Conc
