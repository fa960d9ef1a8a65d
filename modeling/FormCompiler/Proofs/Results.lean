/-! Results of computations that may fail with a message. -/

namespace FormCompiler

variable {ε α β : Type} {x : Except ε α} {f : α → Except ε β}

theorem except_bind_ok {b : β} : (x >>= f) = .ok b ↔ ∃ a, x = .ok a ∧ f a = .ok b := by
  cases x <;> simp [bind,Except.bind]

theorem mapM_ok {l : List α} {l' : List β} : l.mapM f = .ok l' ↔ l.map f = l'.map .ok := by
  induction l generalizing l' with
  | nil => simp [pure,Except.pure,eq_comm]
  | cons a l ih =>
    rw [List.mapM_cons,except_bind_ok]
    simp only [except_bind_ok,ih]
    cases l' with
    | nil => simp [pure,Except.pure]
    | cons b l' =>
      simp only [pure,Except.pure,Except.ok.injEq,List.cons.injEq,List.map_cons]
      constructor
      · rintro ⟨_,ha,_,hl,rfl,rfl⟩
        exact ⟨ha,hl⟩
      · rintro ⟨ha,hl⟩
        exact ⟨b,ha,l',hl,rfl,rfl⟩

def Succeeds (x : Except ε α) : Prop := ∃ a, x = .ok a

theorem exists_of_any {test : α → Bool} (h : x.toOption.any test = true) : ∃ a, x = .ok a ∧ test a = true := by
  cases x with
  | ok a => exact ⟨a,rfl,h⟩
  | error => cases h

namespace Succeeds

theorem of_isOk (h : x.isOk = true) : Succeeds x := by
  cases x with
  | ok a => exact ⟨a,rfl⟩
  | error => cases h

theorem pure (a : α) : Succeeds (pure a : Except ε α) := ⟨a,rfl⟩

theorem bind (h : Succeeds x) (hf : ∀ a, Succeeds (f a)) : Succeeds (x >>= f) := by
  obtain ⟨a,rfl⟩ := h
  exact hf a

theorem map {f : α → β} (h : Succeeds x) : Succeeds (x >>= fun a => Pure.pure (f a)) := h.bind fun a => pure (f a)

theorem mapM {l : List α} (h : ∀ a ∈ l, Succeeds (f a)) : Succeeds (l.mapM f) := by
  induction l with
  | nil => exact pure []
  | cons a l ih =>
    rw [List.mapM_cons]
    exact (h a (by simp)).bind fun _ => (ih fun b hb => h b (by simp [hb])).map

end Succeeds

end FormCompiler
