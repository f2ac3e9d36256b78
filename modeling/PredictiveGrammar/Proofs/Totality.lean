import PredictiveGrammar.Proofs.BuildingInRange
import PredictiveGrammar.Proofs.ReadRules
import PredictiveGrammar.Proofs.ReportsInRange

/-!
# Every grammar is answered for

Whatever rules are given and whatever is done to the grammar, the only refusals are of rule text that is malformed and
of a start symbol that is none. Everything else has an answer: the sets, the table and all reports, without an index
out of range (`Checked.Answered`), and without a loop that is cut off before it is done.
-/

namespace PredictiveGrammar

/-! ## Reading -/

namespace RuleText

theorem readLines_cases (line : Nat) (previous : Option String) (lines : List (List Char)) :
    (∃ line' reason, readLines line previous lines = .error (.malformedRule line' reason)) ∨
      ∃ rules, readLines line previous lines = .ok rules := by
  induction lines generalizing line previous with
  | nil => exact Or.inr ⟨[], rfl⟩
  | cons text lines ih =>
    rw [readLines]
    split
    · exact ih (line + 1) previous
    · split
      · next reason _ => exact Or.inl ⟨line, reason, rfl⟩
      · next rule _ =>
        rcases ih (line + 1) (some rule.left) with ⟨line', reason, hlines⟩ | ⟨rules, hlines⟩
        · exact Or.inl ⟨line', reason, by rw [hlines]; rfl⟩
        · exact Or.inr ⟨rule :: rules, by rw [hlines]; rfl⟩

end RuleText

/-- Rule text is refused as malformed, or it is the text of some rules. -/
theorem Grammar.parse_cases (text : String) :
    (∃ line reason, Grammar.parse text = .error (.malformedRule line reason)) ∨
      ∃ rules, RuleText.readRules text = .ok rules ∧ Grammar.parse text = .ok (Grammar.ofRules rules) := by
  rw [Grammar.parse]
  rcases RuleText.readLines_cases 1 none (text.toList.splitOn '\n') with ⟨line, reason, hread⟩ | ⟨rules, hread⟩
  · exact Or.inl ⟨line, reason, by rw [RuleText.readRules, hread]; rfl⟩
  · exact Or.inr ⟨rules, hread, by rw [RuleText.readRules, hread]; rfl⟩

/-! ## Loops that are done -/

/-- A round over sets that are stable stores nothing. -/
theorem FirstSets.Stable.round_eq {nts : List NonTerminal} {F : FirstSets} (h : F.Stable nts)
    (hlt : ∀ nt ∈ nts, nt.index < F.sets.length) : F.round nts = (F, false) := by
  induction nts with
  | nil => rfl
  | cons nt nts ih =>
    obtain ⟨hnt, hnts⟩ := List.forall_mem_cons.mp h
    obtain ⟨hlt, hlts⟩ := List.forall_mem_cons.mp hlt
    rw [round_cons, visit_eq hlt, if_pos (congrArg SymbolSet.size hnt), ih hnts hlts]
    rfl

/-- FOLLOW flows between symbols that are there. -/
theorem Grammar.WellFormed.lt_of_mem_followEdges {g : Grammar} (hg : g.WellFormed) {F : FirstSets} {source target : Nat}
    (h : target ∈ (g.followEdges F).getD source) : source < g.symbols.length ∧ target < g.symbols.length := by
  obtain ⟨o, ho, rfl, rfl, -⟩ := Grammar.mem_followEdges.mp h
  obtain ⟨nt, hnt, production, -, hleft, hsymbol, -⟩ := Grammar.mem_occurrences.mp ho
  exact ⟨hleft ▸ hg.index_lt hnt, Grammar.lt_of_isNonTerminal hsymbol⟩

namespace Checked

/-- What is asked of a grammar is answered, without an index out of range on the way. -/
structure Answered (r : Register) (W : FollowSets) (T : Table) : Prop where
  /-- a name leads to a symbol that is there -/
  named : ∀ name, nonTerminalNamed? r name = .ok (r.grammar.nonTerminalNamed? name)
  /-- productions hold symbols -/
  rules : ∃ rules, r.grammar.rules = .ok rules
  /-- the start symbol is one of the symbols -/
  start : ∃ name, r.grammar.startName? = .ok name
  /-- FIRST sets are read and stored where they are -/
  first : first r.grammar = .ok r.grammar.first
  /-- a further round over them stores nothing -/
  settled : r.grammar.first.round r.grammar.nonTerminals = (r.grammar.first, false)
  /-- FOLLOW sets accept the FIRST sets -/
  follow : r.grammar.follow r.grammar.first = .ok W
  /-- their members flow between symbols that are there -/
  edges : ∀ source, ∀ target ∈ (r.grammar.followEdges r.grammar.first).getD source,
    source < r.grammar.symbols.length ∧ target < r.grammar.symbols.length
  /-- the worklist that computes them runs empty -/
  drained : ∃ steps state, state = Worklist.run (r.grammar.followEdges r.grammar.first) steps
    (.initial (r.grammar.directFollow r.grammar.first (FollowSets.seed r.grammar).sets)) ∧
      state.sets = W.sets ∧ state.queue = []
  /-- the table accepts both -/
  table : r.grammar.table r.grammar.first W = .ok T
  /-- its cells are claimed where they are -/
  filled : Checked.table r.grammar r.grammar.first W = .ok T
  /-- and found again there -/
  cells : ∀ name terminal, cell? T name terminal = .ok (T.get? name terminal)
  /-- all reports are made and written -/
  reports : ∀ kinds format, ∃ texts, reports r.grammar kinds format = .ok texts ∧
    r.grammar.reports kinds format = .ok texts ∧ texts.length = kinds.length

/-- **Registers that are reached are answered for.** -/
theorem exists_answered {r : Register} (hr : r.Reached) : ∃ W T, Answered r W T := by
  have hg := hr.grammar_built.1.wellFormed
  obtain ⟨W, hfollow, hW⟩ := hg.follow_eq
  have hclaims := hg.isTerminal_of_mem_claims hW
  refine ⟨W, r.grammar.namedTable r.grammar.first W, ?_⟩
  exact {
    named := nonTerminalNamed?_eq hr
    rules := ⟨_, hg.rules_eq⟩
    start := ⟨_, hg.startName?_eq⟩
    first := first_eq hg
    settled := hg.first_stable.round_eq fun nt => hg.first_rising.index_lt hg
    follow := hfollow
    edges := fun _ _ => hg.lt_of_mem_followEdges
    drained := Grammar.exists_drained hfollow
    table := hg.table_own hW
    filled := table_own hg hW
    cells := cell?_eq fun row => length_cells hg hclaims
    reports := reports_eq hg }

/-- **Everything is total.** Rule text is malformed or gives rules. Rules of any kind, with start symbols chosen and
transformations made in any order, give a grammar, unless a name was asked for as start symbol that is no
non-terminal. Then FIRST and FOLLOW sets and the table are computed and all reports on them made and written, in all
formats. Building, transforming, analysing and reporting go to no list out of range, and do the same as where this is
not checked. -/
theorem pipeline_total :
    (∀ text, (∃ line reason, Grammar.parse text = .error (.malformedRule line reason)) ∨
      ∃ rules, RuleText.readRules text = .ok rules ∧ Grammar.parse text = .ok (Grammar.ofRules rules)) ∧
    ∀ (rules : List Rule) (changes : List Change),
      (∃ name, .start name ∈ changes ∧ prepare rules changes = .error (.refused (.undeclaredStart name)) ∧
        changes.foldlM Grammar.change (Grammar.ofRules rules) = .error (.undeclaredStart name)) ∨
      ∃ r W T, prepare rules changes = .ok r ∧
        changes.foldlM Grammar.change (Grammar.ofRules rules) = .ok r.grammar ∧ Answered r W T := by
  refine ⟨Grammar.parse_cases, fun rules changes => ?_⟩
  rw [prepare, ofRules_eq, ok_bind, ← Register.grammar_ofRules]
  rcases changes_cases (.ofRules rules) changes with hrefused | ⟨r, hr, hchecked, hplain⟩
  · exact Or.inl hrefused
  · obtain ⟨W, T, hanswered⟩ := exists_answered hr
    exact Or.inr ⟨r, W, T, hchecked, hplain, hanswered⟩

end Checked

end PredictiveGrammar
