import PredictiveGrammar.Sets.SetFamily

/-!
# Propagating sets along edges

An edge from `a` to `b` asks that the set of `a` be part of the set of `b`. `SetFamily.propagate` grows a
family to the least one that contains it and satisfies all edges. A worklist holds the sources that still
have to hand their set on. Taking one out adds its set to each target (`Worklist.step`), and a target
whose set grew goes back to the end of the list unless it is there already (`Worklist.flow`).
-/

namespace PredictiveGrammar

/-- The sets so far and the sources still to be handled. -/
structure Worklist where
  /-- the sets as grown so far -/
  sets : SetFamily
  /-- the sources to handle, the next one first -/
  queue : List Nat
  /-- the members of the queue -/
  queued : SymbolSet
deriving DecidableEq

namespace Worklist

/-- Every key is still to be handled, in ascending order. -/
def initial (sets : SetFamily) : Worklist := ⟨sets, sets.keys, .ofList sets.keys⟩

/-- Adds `addition` to the set of one target, and queues the target if that made its set larger. -/
def flow (addition : SymbolSet) (state : Worklist) (target : Nat) : Worklist :=
  let sets := state.sets.add target addition
  if (state.sets.getD target).size < (sets.getD target).size ∧ target ∉ state.queued then
    ⟨sets, state.queue ++ [target], state.queued.insert target⟩
  else { state with sets }

/-- Handles the next source: its set, as it is now, flows to its targets in ascending order. -/
def step (edges : SetFamily) (state : Worklist) : Worklist :=
  match state.queue with
  | [] => state
  | source :: queue =>
    (edges.getD source).toList.foldl (flow (state.sets.getD source))
      ⟨state.sets, queue, state.queued.erase source⟩

/-- Handles sources until none is left, at most `steps` of them. -/
def run (edges : SetFamily) : (steps : Nat) → Worklist → Worklist
  | 0, state => state
  | steps + 1, state =>
    if state.queue.isEmpty then state else run edges steps (state.step edges)

end Worklist

/-- The least family that contains `sets` and satisfies all edges. Each key is handled once to begin
with, and again only after its set grew, which it does at most once for each member of any set. -/
def SetFamily.propagate (sets edges : SetFamily) : SetFamily :=
  (Worklist.run edges (sets.keys.length * (1 + sets.union.size)) (.initial sets)).sets

end PredictiveGrammar
