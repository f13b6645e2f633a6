import TcpStack.Run

/-! Outcomes read backwards: what is known of the parts of a computation once the whole of it has come
to a value. A computation that ends in a fault satisfies these statements for want of a value. -/

namespace TcpStack.Outcome

variable {ε α β : Type}

@[simp] theorem bind_eq_ok {x : Except ε α} {f : α → Except ε β} {b : β} :
    (x >>= f) = .ok b ↔ ∃ a, x = .ok a ∧ f a = .ok b := by
  cases x <;> simp [bind, Except.bind]

@[simp] theorem ok_bind (a : α) (f : α → Except ε β) : (Except.ok a >>= f) = f a := rfl

@[simp] theorem pure_eq_ok {a b : α} : (pure a : Except ε α) = .ok b ↔ a = b := by
  simp [pure, Except.pure]

@[simp] theorem map_eq_ok {x : Except ε α} {f : α → β} {b : β} :
    (f <$> x) = .ok b ↔ ∃ a, x = .ok a ∧ f a = b := by
  cases x <;> simp [Functor.map, Except.map]

theorem mapError_eq_ok {ε' : Type} {x : Except ε α} {f : ε → ε'} {a : α} : x.mapError f = .ok a ↔ x = .ok a := by
  cases x with
  | error => exact ⟨nofun, nofun⟩
  | ok =>
    constructor
    · rintro ⟨⟩
      rfl
    · rintro ⟨⟩
      rfl

theorem mem_toOption {x : Except ε α} {a : α} : a ∈ x.toOption ↔ x = .ok a := by
  cases x <;> simp [Except.toOption]

theorem mem_of_mapM {f : α → Except ε β} {l : List α} {out : List β} (h : l.mapM f = .ok out)
    {b : β} (member : b ∈ out) : ∃ a ∈ l, f a = .ok b := by
  induction l generalizing out with
  | nil =>
    rw [List.mapM_nil, pure_eq_ok] at h
    simp [← h] at member
  | cons a rest ih =>
    rw [List.mapM_cons] at h
    simp only [bind_eq_ok, pure_eq_ok] at h
    obtain ⟨first, hfirst, others, hothers, rfl⟩ := h
    rcases List.mem_cons.mp member with rfl | member
    · exact ⟨a, by simp, hfirst⟩
    · obtain ⟨a', inside, ha'⟩ := ih hothers member
      exact ⟨a', by simp [inside], ha'⟩

theorem mapM_returns {f : α → Except ε β} {l : List α} (each : ∀ a ∈ l, ∃ b, f a = .ok b) :
    ∃ out, l.mapM f = .ok out := by
  induction l with
  | nil => exact ⟨[], rfl⟩
  | cons a rest ih =>
    obtain ⟨b, first⟩ := each a (by simp)
    obtain ⟨out, others⟩ := ih fun a' inside => each a' (by simp [inside])
    exact ⟨b :: out, by rw [List.mapM_cons, first, ok_bind, others]; rfl⟩

theorem foldlM_induction {P : β → Prop} {f : β → α → Except ε β} {l : List α} {first last : β}
    (h : l.foldlM f first = .ok last) (start : P first)
    (step : ∀ a ∈ l, ∀ before after, f before a = .ok after → P before → P after) : P last := by
  induction l generalizing first with
  | nil =>
    rw [List.foldlM_nil, pure_eq_ok] at h
    exact h ▸ start
  | cons a rest ih =>
    rw [List.foldlM_cons, bind_eq_ok] at h
    obtain ⟨middle, hmiddle, h⟩ := h
    have kept := step a (by simp) first middle hmiddle start
    exact ih h kept fun a' inside => step a' (by simp [inside])

theorem foldlM_returns {P : β → Prop} {f : β → α → Except ε β} {l : List α} {first : β}
    (start : P first) (step : ∀ a ∈ l, ∀ before, P before → ∃ after, f before a = .ok after ∧ P after) :
    ∃ last, l.foldlM f first = .ok last ∧ P last := by
  induction l generalizing first with
  | nil => exact ⟨first, rfl, start⟩
  | cons a rest ih =>
    obtain ⟨middle, hmiddle, kept⟩ := step a (by simp) first start
    rw [List.foldlM_cons, hmiddle, ok_bind]
    exact ih kept fun a' inside => step a' (by simp [inside])

theorem foldlM_reaches {I P : β → Prop} {f : β → α → Except ε β} {l : List α} {first last : β} {a : α}
    (member : a ∈ l) (h : l.foldlM f first = .ok last) (start : I first)
    (sound : ∀ b ∈ l, ∀ before after, f before b = .ok after → I before → I after)
    (brings : ∀ before after, f before a = .ok after → I before → P after)
    (keeps : ∀ b ∈ l, ∀ before after, f before b = .ok after → I before → P before → P after) :
    P last := by
  induction l generalizing first with
  | nil => cases member
  | cons b rest ih =>
    rw [List.foldlM_cons, bind_eq_ok] at h
    obtain ⟨middle, step, h⟩ := h
    have middle_sound := sound b (by simp) first middle step start
    rcases List.mem_cons.mp member with rfl | later
    · have kept := foldlM_induction (P := fun point => I point ∧ P point) h
        ⟨middle_sound, brings first middle step start⟩ fun c inside before after step ⟨known, here⟩ =>
          ⟨sound c (by simp [inside]) before after step known,
            keeps c (by simp [inside]) before after step known here⟩
      exact kept.2
    · exact ih later h middle_sound (fun c inside => sound c (by simp [inside]))
        fun c inside => keeps c (by simp [inside])

end TcpStack.Outcome

namespace TcpStack.Run

@[simp] theorem result_map {α β : Type} (f : α → β) (run : Run α) :
    (f <$> run).result = f <$> run.result := by
  rw [map_eq_pure_bind, result_bind, map_eq_pure_bind]
  rfl

theorem bind_congr_of_ok {α β : Type} {run : Run α} {next other : α → Run β}
    (same : ∀ a, run.result = .ok a → next a = other a) : run >>= next = run >>= other := by
  obtain ⟨notices, _ | a⟩ := run
  · rfl
  · change Run.mk (notices ++ (next a).notices) (next a).result = _
    rw [same a rfl]
    rfl

theorem lift_pure {α : Type} (a : α) : (liftM (pure a : Except Fault α) : Run α) = pure a := rfl

theorem lift_bind {α β : Type} (x : Except Fault α) (f : α → Except Fault β) :
    (liftM (x >>= f) : Run β) = (liftM x : Run α) >>= fun a => liftM (f a) := by
  cases x <;> rfl

end TcpStack.Run
