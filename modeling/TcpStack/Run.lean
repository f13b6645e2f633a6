import TcpStack.Notice

/-! Runs: the outcome of a step with what it says on the way. A fault ends a step; what was said
before it is kept. -/

namespace TcpStack

structure Run (α : Type) where
  notices : List Notice
  result : Except Fault α

namespace Run

protected def pure (a : α) : Run α := ⟨[], .ok a⟩

protected def bind (run : Run α) (next : α → Run β) : Run β :=
  match run.result with
  | .ok a => ⟨run.notices ++ (next a).notices, (next a).result⟩
  | .error fault => ⟨run.notices, .error fault⟩

instance : Monad Run where
  pure := Run.pure
  bind := Run.bind

instance : MonadLift (Except Fault) Run := ⟨fun result => ⟨[], result⟩⟩

def sayAll (notices : List Notice) : Run Unit := ⟨notices, .ok ()⟩

def say (notice : Notice) : Run Unit := sayAll [notice]

@[simp] theorem result_pure (a : α) : (pure a : Run α).result = .ok a := rfl

@[simp] theorem result_sayAll (notices : List Notice) : (sayAll notices).result = .ok () := rfl

@[simp] theorem result_say (notice : Notice) : (say notice).result = .ok () := rfl

@[simp] theorem result_lift (result : Except Fault α) :
    (liftM result : Run α).result = result := rfl

@[simp] theorem result_bind (run : Run α) (next : α → Run β) :
    (run >>= next).result = run.result >>= fun a => (next a).result := by
  obtain ⟨_, _ | _⟩ := run <;> rfl

theorem bind_eq_ok_iff {run : Run α} {next : α → Run β} {b : β} :
    (run >>= next).result = .ok b ↔ ∃ a, run.result = .ok a ∧ (next a).result = .ok b := by
  rw [result_bind]
  cases run.result <;> simp [Bind.bind, Except.bind]

instance : LawfulMonad Run := LawfulMonad.mk' Run
  (by rintro α ⟨_, _ | _⟩ <;> simp [Functor.map, Run.bind, Run.pure])
  (by intro α β a next; simp [bind, pure, Run.bind, Run.pure])
  (by
    rintro α β γ ⟨_, _ | a⟩ f g
    · rfl
    · rcases h : f a with ⟨_, _ | _⟩ <;> simp [bind, Run.bind, h, List.append_assoc])

end Run
end TcpStack
