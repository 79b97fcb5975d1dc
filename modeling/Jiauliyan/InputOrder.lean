import Jiauliyan.Serial
import Jiauliyan.Keyboard

namespace Jiauliyan.InputOrder

open Jiauliyan.Execution Jiauliyan.ShiftQueue

/-- A byte received after the decrement overwrites the last byte before it is
moved: `1, 2, 3` arrive, `1` is returned and `3, 3` are buffered. -/
theorem input_overwritten :
    (∃ ports s, Run (fun s p t => Serial.Step s p t ∧ Serial.Room s p) (Serial.boot true) ports s ∧
      s.phase = .idle ∧ Serial.bytesOf s.returned ++ Serial.buffered s ≠ ports.reduceOption) ∧
    (∃ keys s,
      Run (fun s k t => Keyboard.Step s k t ∧ Keyboard.Room s k) (Keyboard.boot true) keys s ∧
      s.phase = .idle ∧ s.returned ++ Keyboard.buffered s ≠ keys.reduceOption) := by
  constructor
  · refine ⟨[some 1, some 2, none, none, none, some 3, none, none], _,
      Run.cons ⟨.interrupt _ (some 1), by decide⟩ (Run.cons ⟨.interrupt _ (some 2), by decide⟩
      (Run.cons ⟨.get _, by decide⟩ (Run.cons ⟨.get _, by decide⟩ (Run.cons ⟨.get _, by decide⟩
      (Run.cons ⟨.interrupt _ (some 3), by decide⟩ (Run.cons ⟨.get _, by decide⟩
      (Run.cons ⟨.get _, by decide⟩ (Run.nil _)))))))), rfl, by decide⟩
  · refine ⟨[some 97, some 98, none, none, none, some 99, none, none], _,
      Run.cons ⟨.interrupt _ 30, by decide⟩ (Run.cons ⟨.interrupt _ 48, by decide⟩
      (Run.cons ⟨.get _, by decide⟩ (Run.cons ⟨.get _, by decide⟩ (Run.cons ⟨.get _, by decide⟩
      (Run.cons ⟨.interrupt _ 46, by decide⟩ (Run.cons ⟨.get _, by decide⟩
      (Run.cons ⟨.get _, by decide⟩ (Run.nil _)))))))), rfl, by decide⟩

/-- Whenever no read is in progress, both drivers have returned or still hold
exactly what was delivered, if every delivery was undisturbed. -/
theorem input_in_order (handler : Bool) :
    (∀ ports s,
      Run (fun s p t => Serial.Step s p t ∧ Serial.Room s p ∧ Serial.Undisturbed s p)
        (Serial.boot handler) ports s →
      s.phase = .idle → Serial.bytesOf s.returned ++ Serial.buffered s = ports.reduceOption) ∧
    (∀ keys s,
      Run (fun s k t => Keyboard.Step s k t ∧ Keyboard.Room s k ∧ Keyboard.Undisturbed s k)
        (Keyboard.boot handler) keys s →
      s.phase = .idle → s.returned ++ Keyboard.buffered s = keys.reduceOption) :=
  ⟨fun _ _ h hp => Serial.received_exact h hp, fun _ _ h hp => Keyboard.typed_exact h hp⟩

theorem input_in_order_sample :
    (∃ s, s.phase = .idle ∧ Serial.bytesOf s.returned ++ Serial.buffered s = [1, 2]) ∧
    (∃ s, s.phase = .idle ∧ s.returned ++ Keyboard.buffered s = [97, 98]) := by
  constructor
  · exact ⟨_, rfl, (input_in_order true).1 [some 1, some 2, none, none, none, none, none] _
      (Run.cons ⟨.interrupt _ (some 1), by decide, Serial.undisturbed_idle rfl _⟩
      (Run.cons ⟨.interrupt _ (some 2), by decide, Serial.undisturbed_idle rfl _⟩
      (Run.cons ⟨.get _, by decide, Serial.undisturbed_none _⟩
      (Run.cons ⟨.get _, by decide, Serial.undisturbed_none _⟩
      (Run.cons ⟨.get _, by decide, Serial.undisturbed_none _⟩
      (Run.cons ⟨.get _, by decide, Serial.undisturbed_none _⟩
      (Run.cons ⟨.get _, by decide, Serial.undisturbed_none _⟩ (Run.nil _)))))))) rfl⟩
  · exact ⟨_, rfl, (input_in_order true).2 [some 97, some 98, none, none, none, none, none] _
      (Run.cons ⟨.interrupt _ 30, by decide, Keyboard.undisturbed_idle rfl _⟩
      (Run.cons ⟨.interrupt _ 48, by decide, Keyboard.undisturbed_idle rfl _⟩
      (Run.cons ⟨.get _, by decide, Keyboard.undisturbed_none _⟩
      (Run.cons ⟨.get _, by decide, Keyboard.undisturbed_none _⟩
      (Run.cons ⟨.get _, by decide, Keyboard.undisturbed_none _⟩
      (Run.cons ⟨.get _, by decide, Keyboard.undisturbed_none _⟩
      (Run.cons ⟨.get _, by decide, Keyboard.undisturbed_none _⟩ (Run.nil _)))))))) rfl⟩

end Jiauliyan.InputOrder
