import MiniRaft.Server.Basic
import Mathlib.Data.List.AList

/-!
# The key-value store

`SimpleStateMachine` of `state_machine.rs`: a map from keys to values, whose calls never fail.
-/

namespace MiniRaft

/-- `SimpleStateMachine`; the `RwLock` is not visible to a single caller. -/
structure SimpleStateMachine where
  dataStore : AList fun _ : String => String

namespace SimpleStateMachine

/-- `SimpleStateMachine::new`. -/
def new : SimpleStateMachine := ⟨∅⟩

/-- `get_value`. -/
def getValue (sm : SimpleStateMachine) (key : String) : Option String := sm.dataStore.lookup key

instance : StateMachine SimpleStateMachine where
  applyLog sm key value := (⟨sm.dataStore.insert key value⟩, true)
  deleteKey sm key := (⟨sm.dataStore.erase key⟩, true)

end SimpleStateMachine

end MiniRaft
