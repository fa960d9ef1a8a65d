import FormCompiler.Lower

/-! What it takes for a step of code generation to succeed. A fault is never caught, so a run that ended
well is taken apart step by step. -/

namespace FormCompiler.Lower

variable {α β : Type} {p : Program} {s t : Emission} {b : β} {a : α}

theorem bind_ok {m : Lower α} {f : α → Lower β} :
    (m >>= f) p s = .ok (b, t) ↔ ∃ a u, m p s = .ok (a, u) ∧ f a p u = .ok (b, t) := by
  show (m p s).bind (fun r => f r.1 p r.2) = _ ↔ _
  cases m p s with
  | ok r => exact ⟨fun h => ⟨r.1,r.2,rfl,h⟩,by rintro ⟨a,u,⟨⟩,h⟩; exact h⟩
  | error d => exact ⟨fun h => (nomatch h),by rintro ⟨a,u,⟨⟩,_⟩⟩

@[simp] theorem pure_ok {b : α} : (pure a : Lower α) p s = .ok (b, t) ↔ a = b ∧ s = t := by
  show Except.ok (a, s) = _ ↔ _
  simp

theorem bind_pure_ok {m : Lower α} {f : α → β} :
    (m >>= fun a => pure (f a)) p s = .ok (b, t) ↔ ∃ a, m p s = .ok (a, t) ∧ f a = b := by
  simp only [bind_ok,pure_ok]
  exact ⟨fun ⟨a,_,h,hb,hq⟩ => ⟨a,hq ▸ h,hb⟩,fun ⟨a,h,hb⟩ => ⟨a,t,h,hb,rfl⟩⟩

@[simp] theorem throw_ok {d : Diagnostic} : (throw d : Lower α) p s = .ok (a, t) ↔ False :=
  ⟨fun h => (nomatch h),False.elim⟩

@[simp] theorem broken_ok {location : Location} {fault : SemanticFault} :
    (broken location fault : Lower α) p s = .ok (a, t) ↔ False := throw_ok

@[simp] theorem impossible_ok {fault : SemanticFault} :
    (impossible fault : Lower α) p s = .ok (a, t) ↔ False := throw_ok

@[simp] theorem read_ok {q : Program} : (read : Lower Program) p s = .ok (q, t) ↔ p = q ∧ s = t := by
  show Except.ok (p, s) = _ ↔ _
  simp

@[simp] theorem get_ok {u : Emission} : (get : Lower Emission) p s = .ok (u, t) ↔ s = u ∧ s = t := by
  show Except.ok (s, s) = _ ↔ _
  simp

theorem read_bind_ok {f : Program → Lower α} : (read >>= f) p s = .ok (a, t) ↔ f p p s = .ok (a, t) := Iff.rfl

theorem get_bind_ok {f : Emission → Lower α} : (get >>= f) p s = .ok (a, t) ↔ f s p s = .ok (a, t) := Iff.rfl

@[simp] theorem modify_ok {f : Emission → Emission} {u : PUnit} :
    (modify f : Lower PUnit) p s = .ok (u, t) ↔ t = f s := by
  show Except.ok (PUnit.unit, f s) = _ ↔ _
  simp [eq_comm]

theorem modify_bind_ok {g : Emission → Emission} {f : PUnit → Lower α} :
    (modify g >>= f) p s = .ok (a, t) ↔ f ⟨⟩ p (g s) = .ok (a, t) := Iff.rfl

@[simp] theorem modifyGet_ok {f : Emission → α × Emission} :
    (modifyGet f : Lower α) p s = .ok (a, t) ↔ a = (f s).1 ∧ t = (f s).2 := by
  show Except.ok (f s) = _ ↔ _
  rw [Except.ok.injEq,Prod.ext_iff,eq_comm,@eq_comm _ _ t]

@[simp] theorem modifyModule_ok {f : Wasm.Module → α × Wasm.Module} :
    modifyModule f p s = .ok (a, t) ↔ a = (f s.module).1 ∧ t = { s with module := (f s.module).2 } :=
  modifyGet_ok

theorem modifyModule_bind_ok {g : Wasm.Module → α × Wasm.Module} {f : α → Lower β} :
    (modifyModule g >>= f) p s = .ok (b, t) ↔
      f (g s.module).1 p { s with module := (g s.module).2 } = .ok (b, t) := Iff.rfl

@[simp] theorem displayName_ok {id : EntityId} {name : String} :
    displayName id p s = .ok (name, t) ↔ name = p.entities.displayName id ∧ s = t := by
  show Except.ok (p.entities.displayName id, s) = _ ↔ _
  simp [eq_comm]

end FormCompiler.Lower
