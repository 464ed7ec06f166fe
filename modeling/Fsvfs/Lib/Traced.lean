/-
  Programs that leave a trace and may stop.

  What a program did before it stopped is kept.
-/
import Fsvfs.Lib.Checked

namespace Fsvfs.Lib

/-- The events of a run, and how it ended. -/
@[ext] structure Traced (ε α : Type) where
  events : List ε
  result : Checked α

namespace Traced
variable {ε α β : Type}

/-- A program without events. -/
def lift (c : Checked α) : Traced ε α := ⟨[], c⟩

/-- A program with some events. -/
def emit (events : List ε) : Traced ε Unit := ⟨events, .ok ()⟩

/-- One program after another. -/
protected def bind (p : Traced ε α) (f : α → Traced ε β) : Traced ε β := match p.result with
  | .ok a => ⟨p.events ++ (f a).events, (f a).result⟩
  | .error s => ⟨p.events, .error s⟩

instance : Monad (Traced ε) where
  pure a := ⟨[], .ok a⟩
  bind := Traced.bind

@[simp] theorem pure_eq (a : α) : (pure a : Traced ε α) = ⟨[], .ok a⟩ := rfl

@[simp] theorem ok_bind (events : List ε) (a : α) (f : α → Traced ε β) :
    (⟨events, .ok a⟩ >>= f : Traced ε β) = ⟨events ++ (f a).events, (f a).result⟩ := rfl

@[simp] theorem error_bind (events : List ε) (s : Stop) (f : α → Traced ε β) :
    (⟨events, .error s⟩ >>= f : Traced ε β) = ⟨events, .error s⟩ := rfl

@[simp] theorem lift_ok_bind (a : α) (f : α → Traced ε β) : (lift (.ok a) >>= f : Traced ε β) = f a := rfl

@[simp] theorem lift_error_bind (s : Stop) (f : α → Traced ε β) :
    (lift (.error s) >>= f : Traced ε β) = lift (.error s) := rfl

@[simp] theorem emit_bind (events : List ε) (f : Unit → Traced ε β) :
    (emit events >>= f : Traced ε β) = ⟨events ++ (f ()).events, (f ()).result⟩ := rfl

theorem ok_bind_emit (events : List ε) (a : α) (f : α → List ε) :
    (⟨events, .ok a⟩ >>= fun a => emit (f a) : Traced ε Unit) = emit (events ++ f a) := rfl

theorem emit_bind_emit (events events' : List ε) :
    (emit events >>= fun _ => emit events' : Traced ε Unit) = emit (events ++ events') := rfl

theorem pure_bind (a : α) (f : α → Traced ε β) : (pure a >>= f : Traced ε β) = f a := rfl

theorem bind_assoc {γ : Type} (p : Traced ε α) (f : α → Traced ε β) (g : β → Traced ε γ) :
    (p >>= f) >>= g = p >>= fun a => f a >>= g := by
  rcases p with ⟨events, s | a⟩
  · rfl
  · rcases h : f a with ⟨events', s | b⟩
    · simp [h]
    · simp [h, List.append_assoc]

/-- A program that returns is one after the other. -/
theorem result_bind_eq_ok {p : Traced ε α} {f : α → Traced ε β} {b : β}
    (h : (p >>= f).result = .ok b) : ∃ a, p.result = .ok a ∧ (f a).result = .ok b ∧
      (p >>= f).events = p.events ++ (f a).events := by
  rcases p with ⟨events, s | a⟩
  · cases h
  · exact ⟨a, rfl, h, rfl⟩

end Traced

end Fsvfs.Lib
