import PredictiveGrammar.Text.Blank

/-!
# Cutting and joining text

Rule text is cut into lines, sides, alternatives and words. All of these work on lists of characters;
cutting at a single character is `List.splitOn`. The rest is here: trimming, cutting at blanks and
cutting at arrows, and on the way back joining pieces and padding them to a width, where a width counts
code points.
-/

namespace PredictiveGrammar.Text

/-! ## Cutting -/

/-- Drops the blanks at both ends. -/
def trim (cs : List Char) : List Char :=
  ((cs.dropWhile isBlank).reverse.dropWhile isBlank).reverse

/-- The words of a text: its longest pieces without blanks, empty ones left out. -/
def words (cs : List Char) : List (List Char) :=
  (cs.splitOnP isBlank).filter (!·.isEmpty)

/-- Cuts at every `->`, the leftmost one first; arrows do not overlap. -/
def splitArrows : List Char → List (List Char)
  | [] => [[]]
  | '-' :: '>' :: cs => [] :: splitArrows cs
  | c :: cs => (splitArrows cs).modifyHead (c :: ·)

/-- There is always a first piece, if an empty one. -/
theorem splitArrows_ne_nil (cs : List Char) : splitArrows cs ≠ [] := by
  fun_induction splitArrows cs with
  | case1 => simp
  | case2 => simp
  | case3 c cs _ ih => simpa [List.modifyHead_eq_nil_iff] using ih

/-! ## Joining and padding -/

/-- The pieces with `separator` between neighbours. -/
def join (separator : String) (pieces : List String) : String := separator.intercalate pieces

/-- `n` spaces. -/
def spaces (n : Nat) : String := String.ofList (List.replicate n ' ')

/-- Spaces after a text up to a width. -/
def padRight (width : Nat) (s : String) : String := s ++ spaces (width - s.length)

/-- Spaces before a text up to a width. -/
def padLeft (width : Nat) (s : String) : String := spaces (width - s.length) ++ s

/-- The width of the widest text, zero if there is none. -/
def maxWidth (texts : List String) : Nat := texts.foldl (fun width s => max width s.length) 0

end PredictiveGrammar.Text
