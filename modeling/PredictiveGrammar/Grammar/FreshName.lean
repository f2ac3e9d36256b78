/-!
# Fresh names

The transformations introduce non-terminals and must not capture a name in use. A fresh name is the wanted one
followed by as few apostrophes as make it unused (`freshName`). Every apostrophe makes a name longer, so
among `used.length + 1` candidates one is unused and the search needs no more steps than that.
-/

namespace PredictiveGrammar

/-- Adds apostrophes to `name` while it is in `used`, at most as many as the first argument says. -/
def addMarks (used : List String) : Nat → String → String
  | 0, name => name
  | steps + 1, name => if name ∈ used then addMarks used steps (name ++ "'") else name

/-- `name` with the fewest apostrophes behind it that make it differ from all of `used`. -/
def freshName (used : List String) (name : String) : String := addMarks used used.length name

end PredictiveGrammar
