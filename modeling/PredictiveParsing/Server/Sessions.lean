import PredictiveParsing.OrderedMap
import PredictiveParsing.Simulation

/-
Simulations kept alive between requests.

Each simulation is kept under a key of its own.  When the store is full, the
oldest ones make room for a new one.

* `Sessions` — the store, oldest first;
* `Sessions.add`, `Sessions.get?`, `Sessions.update`, `Sessions.remove` — the
  operations on it;
* `get?_update_of_ne` — changing one simulation leaves the others alone.

Design notes:

* Keys are counted and then named by a function that is handed in, so that the
  names may be as hard to guess as a server wants them.
* A store always takes a new simulation, even if its limit is below one.
-/
namespace PredictiveParsing

/-- The simulations that are alive, and how many there have been. -/
structure Sessions where
  live : OrderedMap String Simulation := []
  created : Nat := 0
  deriving Repr, Inhabited

namespace Sessions

/-- How many simulations are alive. -/
def size (s : Sessions) : Nat :=
  s.live.length

/-- The entries without the oldest ones, as many as there have to go for one
more to fit below the limit. -/
def makeRoom (limit : Int) : OrderedMap String Simulation → OrderedMap String Simulation
  | [] => []
  | e :: es => if limit ≤ (e :: es).length then makeRoom limit es else e :: es

/-- The store with one more simulation, and the key it got. -/
def add (limit : Int) (naming : Nat → String) (sim : Simulation) (s : Sessions) :
    String × Sessions :=
  let key := naming s.created
  (key, ⟨OrderedMap.put key sim (makeRoom limit s.live), s.created + 1⟩)

/-- The simulation under a key. -/
def get? (key : String) (s : Sessions) : Option Simulation :=
  OrderedMap.get? key s.live

/-- The store with the simulation under a key replaced. -/
def update (key : String) (sim : Simulation) (s : Sessions) : Sessions :=
  { s with live := OrderedMap.put key sim s.live }

/-- The store without the simulation under a key. -/
def remove (key : String) (s : Sessions) : Sessions :=
  { s with live := OrderedMap.remove key s.live }

/-! ### What the operations leave -/

@[simp] theorem get?_update_self (key : String) (sim : Simulation) (s : Sessions) :
    (s.update key sim).get? key = some sim :=
  OrderedMap.get?_put_self _ _ _

/-- Changing one simulation leaves the others alone. -/
theorem get?_update_of_ne {key other : String} (h : other ≠ key) (sim : Simulation)
    (s : Sessions) : (s.update key sim).get? other = s.get? other :=
  OrderedMap.get?_put_of_ne h _ _

end Sessions

end PredictiveParsing
