import Mathlib.Data.List.Basic
import PredictiveGrammar.Grammar.Basic
import PredictiveGrammar.Text.Pieces
import PredictiveGrammar.Text.Tex

/-!
# Layouts of TeX text

Every TeX text is markup with names between (`TexLayout`), and is read off its layout as soon as it is known how names
are written. A name by itself is a command if it is `ε` and escaped otherwise (`Tex.symbol`). If every letter `ε` of
the joined text is replaced instead, a name that has the letter and more is altered (`Tex.replaced_eq_or_lt`). As it
gets longer by that, a text with replaced letters has its names written by themselves only if no name is altered
(`TexLayout.write_replaced_iff`).
-/

namespace PredictiveGrammar

open Text

/-! ## Writing one name -/

namespace Tex

variable {command separator s t name : String} {pieces : List String}

/-- A name by itself: `ε` is a command, every other name is escaped. -/
def symbol (command name : String) : String := if name = epsilon then command else escape name

/-- A name of which the letters `ε` are replaced after it was escaped. -/
def replaced (command name : String) : String := replaceEpsilon command (escape name)

/-- Escaping a character neither adds the letter `ε` nor loses it. -/
theorem mem_escapeChar {c : Char} : 'ε' ∈ (escapeChar c).toList ↔ 'ε' = c := by
  unfold escapeChar
  split
  case h_16 => simp
  all_goals decide

/-- Escaping brings in no letter `ε`, and takes none away. -/
theorem mem_escapeChars {cs : List Char} : 'ε' ∈ escapeChars cs ↔ 'ε' ∈ cs := by
  fun_induction escapeChars cs with
  | case1 => rfl
  | case2 cs _ ih => simp [ih]
  | case3 cs _ ih => simp [ih]
  | case4 c cs _ ih => rw [List.mem_append, mem_escapeChar, ih, List.mem_cons]

/-- So it is for names. -/
theorem mem_escape : 'ε' ∈ (escape s).toList ↔ 'ε' ∈ s.toList := by
  rw [escape, String.toList_ofList, mem_escapeChars]

/-- The letter is replaced wherever it stands, so that parts can be replaced one by one. -/
theorem replaceEpsilon_append :
    replaceEpsilon command (s ++ t) = replaceEpsilon command s ++ replaceEpsilon command t := by
  rw [replaceEpsilon, replaceEpsilon, replaceEpsilon, String.toList_append, List.flatMap_append, String.ofList_append]

/-- Where it does not stand, nothing is replaced. -/
theorem replaceEpsilon_of_notMem (h : 'ε' ∉ s.toList) : replaceEpsilon command s = s := by
  have hself : s.toList.flatMap (fun c => if c = 'ε' then command.toList else [c]) = s.toList := by
    refine (List.flatMap_congr fun c hc => if_neg ?_).trans (List.flatMap_singleton' _)
    rintro rfl
    exact h hc
  rw [replaceEpsilon, hself, String.ofList_toList]

/-- In joined text the pieces are changed one by one, if the separator is not. -/
theorem replaceEpsilon_join (h : 'ε' ∉ separator.toList) :
    replaceEpsilon command (join separator pieces) = join separator (pieces.map (replaceEpsilon command)) := by
  induction pieces with
  | nil => rfl
  | cons piece pieces ih =>
    cases pieces with
    | nil => rfl
    | cons other pieces =>
      simp only [join, List.map_cons] at ih ⊢
      rw [String.intercalate_cons_cons, String.intercalate_cons_cons, replaceEpsilon_append, replaceEpsilon_append,
        replaceEpsilon_of_notMem h, ih]

/-- Replacing a letter by a longer command makes a text longer. -/
theorem length_lt_replaceEpsilon (hlong : 1 < command.length) (h : 'ε' ∈ s.toList) :
    s.length < (replaceEpsilon command s).length := by
  have hletter : ∀ c : Char, 1 ≤ (if c = 'ε' then command.toList else [c]).length := by
    intro c
    split
    · rw [String.length_toList]
      omega
    · exact Nat.le_refl 1
  have hall : ∀ cs : List Char, cs.length ≤ (cs.flatMap fun c => if c = 'ε' then command.toList else [c]).length := by
    intro cs
    induction cs with
    | nil => exact Nat.le_refl 0
    | cons c cs ih =>
      rw [List.flatMap_cons, List.length_append, List.length_cons]
      have := hletter c
      omega
  -- no letter gets shorter, and the one that is there gets longer
  obtain ⟨before, after, hsplit⟩ := List.append_of_mem h
  have hbefore := hall before
  have hafter := hall after
  rw [← String.length_toList, ← String.length_toList, replaceEpsilon, String.toList_ofList, hsplit,
    List.flatMap_append, List.flatMap_cons, if_pos rfl]
  simp only [List.length_append, List.length_cons, String.length_toList]
  omega

/-- **A name is altered** if it contains the letter `ε` and more. -/
theorem replaced_eq_or_lt (hlong : 1 < command.length) (name : String) :
    replaced command name = symbol command name ∧ ('ε' ∈ name.toList → name = epsilon) ∨
      (symbol command name).length < (replaced command name).length ∧ ¬ ('ε' ∈ name.toList → name = epsilon) := by
  by_cases h0 : name = epsilon
  · subst h0
    have hcommand : replaced command epsilon = command := by
      have hescape : (escape epsilon).toList = ['ε'] := by decide
      rw [replaced, replaceEpsilon, hescape, List.flatMap_singleton, if_pos rfl, String.ofList_toList]
    exact Or.inl ⟨by rw [hcommand, symbol, if_pos rfl], fun _ => rfl⟩
  · rw [symbol, if_neg h0]
    by_cases hmem : 'ε' ∈ name.toList
    · exact Or.inr ⟨length_lt_replaceEpsilon hlong (mem_escape.mpr hmem), fun h => h0 (h hmem)⟩
    · exact Or.inl ⟨replaceEpsilon_of_notMem fun h => hmem (mem_escape.mp h), fun h => absurd h hmem⟩

/-- **Replacing the letter and writing the command for the symbol** agree on a name unless it has the letter as a part.
The command is longer than a letter, or there would be nothing to tell apart. -/
theorem replaced_eq_iff {command name : String} (hlong : 1 < command.length) :
    replaced command name = symbol command name ↔ ('ε' ∈ name.toList → name = epsilon) := by
  rcases replaced_eq_or_lt hlong name with ⟨heq, hname⟩ | ⟨hlt, hname⟩
  · exact iff_of_true heq hname
  · exact iff_of_false (fun heq => by rw [heq] at hlt; exact Nat.lt_irrefl _ hlt) hname

end Tex

/-! ## Layouts -/

/-- A part of a TeX text. -/
inductive TexPart
  /-- what stands between names -/
  | markup (text : String)
  /-- the name that a row is about -/
  | label (name : String)
  /-- a name that is listed in a row -/
  | symbol (name : String)

/-- The text of a part, where `label` and `symbol` write the names. -/
def TexPart.write (label symbol : String → String) : TexPart → String
  | .markup text => text
  | .label name => label name
  | .symbol name => symbol name

/-- The parts of a TeX text, in order. -/
abbrev TexLayout := List TexPart

namespace TexLayout

/-- The text of all parts. -/
def write (label symbol : String → String) (layout : TexLayout) : String :=
  String.join (layout.map (TexPart.write label symbol))

/-- Layouts with a separator between neighbours. -/
def separated (separator : String) (layouts : List TexLayout) : TexLayout :=
  [TexPart.markup separator].intercalate layouts

/-- Listed names with a separator between neighbours. -/
def symbols (separator : String) (names : List String) : TexLayout :=
  separated separator (names.map fun name => [.symbol name])

end TexLayout

/-! ## Writing layouts -/

section

variable {label symbol : String → String}

@[simp]
theorem TexPart.write_markup {text : String} : (TexPart.markup text).write label symbol = text := rfl

@[simp]
theorem TexPart.write_label {name : String} : (TexPart.label name).write label symbol = label name := rfl

@[simp]
theorem TexPart.write_symbol {name : String} : (TexPart.symbol name).write label symbol = symbol name := rfl

end

namespace TexLayout

variable {label symbol label' symbol' : String → String} {separator : String} {layout layout' : TexLayout}
  {layouts : List TexLayout} {part : TexPart}

theorem write_nil : write label symbol [] = "" := rfl

theorem write_cons : write label symbol (part :: layout) = part.write label symbol ++ write label symbol layout :=
  String.join_cons

theorem write_append :
    write label symbol (layout ++ layout') = write label symbol layout ++ write label symbol layout' := by
  rw [write, List.map_append, String.join_append]
  rfl

/-- Parts with a separator between them are written as joined texts. -/
theorem write_separated :
    write label symbol (separated separator layouts) = join separator (layouts.map (write label symbol)) := by
  induction layouts with
  | nil => rfl
  | cons layout layouts ih =>
    cases layouts with
    | nil => simp [separated, join]
    | cons other layouts =>
      simp only [separated, join, List.map_cons] at ih ⊢
      rw [List.intercalate_cons_cons, write_append, write_append, ih, String.intercalate_cons_cons]
      simp [write, TexPart.write]

/-- So are names. -/
theorem write_symbols {names : List String} :
    write label symbol (symbols separator names) = join separator (names.map symbol) := by
  rw [symbols, write_separated, List.map_map]
  refine congrArg _ (List.map_congr_left fun name _ => ?_)
  simp [write, TexPart.write]

/-- What stands in the parts that are separated, stands between separators. -/
theorem mem_separated (hpart : part ≠ .markup separator) :
    part ∈ separated separator layouts ↔ ∃ layout ∈ layouts, part ∈ layout := by
  induction layouts with
  | nil => simp [separated]
  | cons layout layouts ih =>
    cases layouts with
    | nil => simp [separated]
    | cons other layouts =>
      simp only [separated] at ih ⊢
      rw [List.intercalate_cons_cons, List.mem_append, List.mem_append, ih, List.mem_singleton,
        or_iff_left hpart, List.exists_mem_cons_iff (a := layout)]

theorem mem_symbols {names : List String} {name : String} : .symbol name ∈ symbols separator names ↔ name ∈ names := by
  rw [symbols, mem_separated (by simp)]
  simp

/-- A sequence of symbols has no label. -/
theorem label_notMem_symbols {names : List String} {name : String} : .label name ∉ symbols separator names := by
  rw [symbols, mem_separated (by simp)]
  simp

/-- Two ways to write names agree on a layout if they agree on its parts. -/
theorem write_congr (h : ∀ part ∈ layout, part.write label symbol = part.write label' symbol') :
    write label symbol layout = write label' symbol' layout :=
  congrArg String.join (List.map_congr_left h)

/-- A text is as long as another if each of its parts is the same or longer. -/
theorem length_write_le
    (h : ∀ part ∈ layout, part.write label symbol = part.write label' symbol' ∨
      (part.write label' symbol').length < (part.write label symbol).length) :
    (write label' symbol' layout).length ≤ (write label symbol layout).length := by
  induction layout with
  | nil => exact Nat.le_refl _
  | cons part layout ih =>
    obtain ⟨hpart, hlayout⟩ := List.forall_mem_cons.mp h
    have hrest := ih hlayout
    rw [write_cons, write_cons, String.length_append, String.length_append]
    rcases hpart with heq | hlt
    · rw [heq]
      omega
    · omega

/-- **Texts differ if a part does**, where parts that differ are longer in one of them. -/
theorem write_eq_iff
    (h : ∀ part ∈ layout, part.write label symbol = part.write label' symbol' ∨
      (part.write label' symbol').length < (part.write label symbol).length) :
    write label symbol layout = write label' symbol' layout ↔
      ∀ part ∈ layout, part.write label symbol = part.write label' symbol' := by
  refine ⟨fun heq => ?_, write_congr⟩
  induction layout with
  | nil => exact List.forall_mem_nil _
  | cons part layout ih =>
    obtain ⟨hpart, hlayout⟩ := List.forall_mem_cons.mp h
    have hrest := length_write_le hlayout
    rw [write_cons, write_cons] at heq
    have hlength := congrArg String.length heq
    rw [String.length_append, String.length_append] at hlength
    -- were the first part longer, the other text could not catch up
    have hsame : part.write label symbol = part.write label' symbol' := hpart.resolve_right fun hlt => by omega
    rw [hsame, String.append_right_inj] at heq
    exact List.forall_mem_cons.mpr ⟨hsame, ih hlayout heq⟩

/-- Replacing the letters of listed names comes to writing all names by themselves if it does for each of them. -/
theorem write_replaced_iff {label : String → String} {command : String} {layout : TexLayout}
    (hlong : 1 < command.length) (hlabel : ∀ name, .label name ∈ layout →
      label name = Tex.symbol command name ∨ label name = Tex.replaced command name) :
    layout.write label (Tex.replaced command) = layout.write (Tex.symbol command) (Tex.symbol command) ↔
      (∀ name, .label name ∈ layout → label name = Tex.symbol command name) ∧
        ∀ name, .symbol name ∈ layout → 'ε' ∈ name.toList → name = epsilon := by
  have hlonger : ∀ name, Tex.replaced command name = Tex.symbol command name ∨
      (Tex.symbol command name).length < (Tex.replaced command name).length := fun name =>
    (Tex.replaced_eq_or_lt hlong name).imp And.left And.left
  rw [write_eq_iff]
  -- the parts agree one by one, which says something of labels and symbols only
  · constructor
    · refine fun hall => ⟨fun name hname => ?_, fun name hname => ?_⟩
      · simpa only [TexPart.write_label] using hall _ hname
      · rw [← Tex.replaced_eq_iff hlong]
        simpa only [TexPart.write_symbol] using hall _ hname
    · intro hall part hpart
      cases part with
      | markup text => rw [TexPart.write_markup, TexPart.write_markup]
      | label name => rw [TexPart.write_label, TexPart.write_label, hall.1 name hpart]
      | symbol name =>
        rw [TexPart.write_symbol, TexPart.write_symbol, Tex.replaced_eq_iff hlong]
        exact hall.2 name hpart
  -- a part that does not agree is longer where letters are replaced
  · intro part hpart
    cases part with
    | markup text => exact Or.inl (by rw [TexPart.write_markup, TexPart.write_markup])
    | label name =>
      rw [TexPart.write_label, TexPart.write_label]
      rcases hlabel name hpart with heq | heq
      · exact Or.inl heq
      · rw [heq]
        exact hlonger name
    | symbol name =>
      rw [TexPart.write_symbol, TexPart.write_symbol]
      exact hlonger name

end TexLayout

end PredictiveGrammar
