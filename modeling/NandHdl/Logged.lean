/-!
# Logged results

* `Logged`: a result and what was reported on the way to it, in order.
* `Logged.value_bind`, `Logged.log_bind`: running one after another.
* `Logged.mapLog_bind`: reports rewritten in both parts.
-/

namespace NandHdl

/-- A result, and the reports on the way to it. -/
structure Logged (ω α : Type) where
  value : α
  log : Array ω

namespace Logged

variable {ω ω' α β : Type}

/-- Goes on with the result, keeping the reports of both parts in order. -/
def andThen (x : Logged ω α) (f : α → Logged ω β) : Logged ω β :=
  let y := f x.value
  ⟨y.value, x.log ++ y.log⟩

instance : Monad (Logged ω) where
  pure a := ⟨a, #[]⟩
  bind := andThen

/-- Reports one thing. -/
def note (e : ω) : Logged ω Unit := ⟨(), #[e]⟩

/-- The same result with every report turned into another. -/
def mapLog (f : ω → ω') (x : Logged ω α) : Logged ω' α := ⟨x.value, x.log.map f⟩

@[simp] theorem value_pure (a : α) : (pure a : Logged ω α).value = a := rfl

@[simp] theorem value_bind (x : Logged ω α) (f : α → Logged ω β) :
    (x >>= f).value = (f x.value).value := rfl

@[simp] theorem value_map (f : α → β) (x : Logged ω α) : (f <$> x).value = f x.value := rfl

@[simp] theorem value_mapLog (f : ω → ω') (x : Logged ω α) : (x.mapLog f).value = x.value := rfl

@[simp] theorem log_pure (a : α) : (pure a : Logged ω α).log = #[] := rfl

@[simp] theorem log_bind (x : Logged ω α) (f : α → Logged ω β) :
    (x >>= f).log = x.log ++ (f x.value).log := rfl

theorem ext {x y : Logged ω α} (hvalue : x.value = y.value) (hlog : x.log = y.log) : x = y := by
  cases x; cases y; cases hvalue; cases hlog; rfl

theorem mapLog_id (x : Logged ω α) : x.mapLog id = x := ext rfl (Array.map_id x.log)

@[simp] theorem mapLog_pure (f : ω → ω') (a : α) : (pure a : Logged ω α).mapLog f = pure a :=
  ext rfl Array.map_empty

@[simp] theorem mapLog_note (f : ω → ω') (e : ω) : (note e).mapLog f = note (f e) :=
  ext rfl Array.map_singleton

@[simp] theorem mapLog_bind (f : ω → ω') (x : Logged ω α) (g : α → Logged ω β) :
    (x >>= g).mapLog f = x.mapLog f >>= fun a => (g a).mapLog f :=
  ext rfl Array.map_append

end Logged

end NandHdl
