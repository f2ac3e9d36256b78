import PredictiveGrammar.Grammar.Basic

/-!
# Derivations

What a grammar means. A sentential form is a list of indices; expanding one non-terminal of it by one of
its productions is a step (`Grammar.Expands`), and a derivation is any number of steps
(`Grammar.Derives`). The symbol `ε` may stand anywhere in a form and means nothing there: what a form
says is what is left when `ε` is erased (`visible`). Derivations of parts of a form can be put side by
side (`Grammar.Derives.append`).
-/

namespace PredictiveGrammar

/-- A sentential form without its `ε`. -/
def visible (form : List Nat) : List Nat := form.filter (· != epsilonIndex)

@[simp] theorem visible_nil : visible [] = [] := rfl

@[simp] theorem visible_append (s t : List Nat) : visible (s ++ t) = visible s ++ visible t :=
  List.filter_append s t

namespace Grammar

variable {g : Grammar} {r s t u : List Nat}

/-- One non-terminal of a form is replaced by one of its productions. -/
inductive Expands (g : Grammar) : List Nat → List Nat → Prop
  | mk (before after : List Nat) {nt : NonTerminal} {production : Production} :
      nt ∈ g.nonTerminals → production ∈ nt.productions →
      Expands g (before ++ nt.index :: after) (before ++ production ++ after)

/-- Any number of expansions. -/
inductive Derives (g : Grammar) : List Nat → List Nat → Prop
  | refl (s : List Nat) : Derives g s s
  | tail {s t u : List Nat} : Derives g s t → g.Expands t u → Derives g s u

/-! ## Expansions and derivations in context -/

/-- A step can be done behind any symbols. -/
theorem Expands.append_left (h : g.Expands s t) (r : List Nat) : g.Expands (r ++ s) (r ++ t) := by
  obtain ⟨before, after, hnt, hp⟩ := h
  simpa only [List.append_assoc] using Expands.mk (r ++ before) after hnt hp

/-- A step can be done in front of any symbols. -/
theorem Expands.append_right (h : g.Expands s t) (r : List Nat) : g.Expands (s ++ r) (t ++ r) := by
  obtain ⟨before, after, hnt, hp⟩ := h
  simpa only [List.append_assoc, List.cons_append] using Expands.mk before (after ++ r) hnt hp

theorem Derives.trans (h : g.Derives s t) (h' : g.Derives t u) : g.Derives s u := by
  induction h' with
  | refl => exact h
  | tail _ step ih => exact ih.tail step

/-- A derivation can be done behind any symbols. -/
theorem Derives.append_left (h : g.Derives s t) (r : List Nat) : g.Derives (r ++ s) (r ++ t) := by
  induction h with
  | refl => exact .refl _
  | tail _ step ih => exact ih.tail (step.append_left r)

/-- A derivation can be done in front of any symbols. -/
theorem Derives.append_right (h : g.Derives s t) (r : List Nat) : g.Derives (s ++ r) (t ++ r) := by
  induction h with
  | refl => exact .refl _
  | tail _ step ih => exact ih.tail (step.append_right r)

/-- Derivations of two forms, side by side. -/
theorem Derives.append (h : g.Derives r s) (h' : g.Derives t u) : g.Derives (r ++ t) (s ++ u) :=
  (h.append_right t).trans (h'.append_left s)

/-- A production of a non-terminal is derived from it in one step. -/
theorem Derives.production {nt : NonTerminal} {production : Production}
    (hnt : nt ∈ g.nonTerminals) (hp : production ∈ nt.productions) :
    g.Derives [nt.index] production := by
  simpa using (Derives.refl [nt.index]).tail (Expands.mk [] [] hnt hp)

end Grammar

end PredictiveGrammar
