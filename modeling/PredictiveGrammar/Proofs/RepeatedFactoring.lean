import PredictiveGrammar.Proofs.Groups
import PredictiveGrammar.Proofs.LeftFactoringWords

/-!
# Repeated left factoring ends

After a factoring only the alternatives of fresh names may start with the same symbol, and these are remainders: they
are shorter than the alternatives that they come from. So the length of the alternatives that share their first symbol
with another one (`Rule.SharesWithin`) goes down with every factoring (`Factored.narrows`). What makes that work is that
alternatives stay different from each other and `ε` stays alone (`Rule.Plain`): otherwise a remainder could be `ε`
and share it. When nothing is shared any more, factoring changes nothing.
-/

namespace PredictiveGrammar

/-- Alternatives that differ from each other and have symbols, among which `ε` stands alone. -/
structure Rule.Plain (rule : Rule) : Prop where
  /-- no alternative stands twice -/
  distinct : rule.rights.Nodup
  /-- every alternative has symbols -/
  inhabited : ∀ right ∈ rule.rights, right ≠ []
  /-- `ε` stands beside no other symbol -/
  epsilonAlone : ∀ right ∈ rule.rights, epsilon ∈ right → right = [epsilon]

/-- Alternatives that start with the same symbol as another one have at most `length` symbols. -/
def Rule.SharesWithin (rule : Rule) (length : Nat) : Prop :=
  ∀ right ∈ rule.rights, ∀ other ∈ rule.rights, right ≠ other → right.head? = other.head? →
    right.length ≤ length

variable {rule entry new : Rule} {fresh : List Rule} {right start rest rest' : List String}
  {group : List (List String)} {length : Nat}

/-! ## Nothing shared -/

theorem Rule.SharesWithin.mono {length' : Nat} (h : rule.SharesWithin length) (hle : length ≤ length') :
    rule.SharesWithin length' :=
  fun right hright other hother hne heq => Nat.le_trans (h right hright other hother hne heq) hle

/-- Alternatives with different first symbols share nothing. -/
theorem Rule.sharesWithin_of_nodup (h : (rule.rights.map List.head?).Nodup) (length : Nat) :
    rule.SharesWithin length := by
  intro right hright other hother hne heq
  exact absurd (List.inj_on_of_nodup_map h hright hother heq) hne

/-- Different alternatives of one symbol start with different symbols. -/
theorem Rule.Plain.nodup_heads (hrule : rule.Plain) (h : rule.SharesWithin 1) :
    (rule.rights.map List.head?).Nodup := by
  refine List.Nodup.map_on (fun right hright other hother heq => ?_) hrule.distinct
  by_contra hne
  have hlength := h right hright other hother hne heq
  have hlength' := h other hother right hright (Ne.symm hne) heq.symm
  obtain ⟨a, rest, rfl⟩ := List.exists_cons_of_ne_nil (hrule.inhabited right hright)
  obtain ⟨b, rest', rfl⟩ := List.exists_cons_of_ne_nil (hrule.inhabited other hother)
  simp_all

/-! ## Groups of several -/

/-- Several alternatives that share a start. -/
structure Branching (length : Nat) (group : List (List String)) : Prop where
  /-- no alternative stands twice -/
  distinct : group.Nodup
  /-- `ε` stands in none of them -/
  epsilonFree : ∀ right ∈ group, epsilon ∉ right
  /-- none is longer than `length` -/
  bounded : ∀ right ∈ group, right.length ≤ length
  /-- they share their first symbol at least -/
  start : sharedStart group ≠ []

/-- **The groups of several** of a plain rule. `ε` starts none of them, since it would be alone in every member. -/
theorem Rule.Plain.branching (hrule : rule.Plain) (hshares : rule.SharesWithin length)
    (hgroup : group ∈ (groupByHead rule.rights).map (·.2)) (hlength : group.length ≠ 1) :
    Branching length group := by
  have hstart := sharedStart_ne_nil hgroup
  rw [groups_eq] at hgroup
  obtain ⟨symbol, -, rfl⟩ := List.mem_map.mp hgroup
  have hdistinct := hrule.distinct.filter (·.head? = some symbol)
  have hmem : ∀ right ∈ rule.rights.filter (·.head? = some symbol),
      right ∈ rule.rights ∧ right.head? = some symbol := by simp
  have hother : ∀ right ∈ rule.rights.filter (·.head? = some symbol),
      ∃ other ∈ rule.rights, other ≠ right ∧ other.head? = some symbol := by
    intro right hright
    have hseveral : rule.rights.filter (·.head? = some symbol) ≠ [right] := fun heq =>
      hlength (congrArg List.length heq)
    obtain ⟨other, hother, hne⟩ :=
      ((hdistinct.ne_singleton_iff right).mp hseveral).resolve_left (List.ne_nil_of_mem hright)
    exact ⟨other, (hmem other hother).1, hne, (hmem other hother).2⟩
  refine ⟨hdistinct, fun right hright hepsilon => ?_, fun right hright => ?_, hstart⟩
  -- an `ε` would be alone in the alternative, and the other one would be the same
  · obtain ⟨other, hmem', hne, hhead'⟩ := hother right hright
    obtain ⟨hright, hhead⟩ := hmem right hright
    obtain rfl := hrule.epsilonAlone right hright hepsilon
    obtain rfl : epsilon = symbol := Option.some.inj hhead
    exact hne (hrule.epsilonAlone other hmem' (List.mem_of_head? hhead'))
  -- what is shared with the other one is short
  · obtain ⟨other, hmem', hne, hhead'⟩ := hother right hright
    obtain ⟨hright, hhead⟩ := hmem right hright
    exact hshares right hright other hmem' (Ne.symm hne) (hhead.trans hhead'.symm)

/-! ## Remainders of a group -/

/-- Nothing else is spelled as the empty alternative is, if it does not hold `ε`. -/
theorem spelled_injective (h : epsilon ∉ rest) (h' : epsilon ∉ rest') (heq : spelled rest = spelled rest') :
    rest = rest' := by
  cases rest with
  | nil =>
    cases rest' with
    | nil => rfl
    | cons symbol rest' => exact absurd (List.cons.inj heq).1 fun heq => h' (heq ▸ List.mem_cons_self)
  | cons symbol rest =>
    cases rest' with
    | nil => exact absurd (List.cons.inj heq).1 fun heq => h (heq ▸ List.mem_cons_self)
    | cons => exact heq

namespace Branching

variable {name : String}

/-- The members of a group, cut behind the shared start. -/
theorem exists_rest (h : Branching length group) (hright : right ∈ group) :
    ∃ rest, right = sharedStart group ++ rest ∧ epsilon ∉ rest := by
  obtain ⟨rest, rfl⟩ := sharedStart_isPrefix hright
  exact ⟨rest, rfl, fun hmem => h.epsilonFree _ hright (List.mem_append_right _ hmem)⟩

/-- What is left of a group is plain again. -/
theorem plain_remainders (h : Branching length group) :
    (Rule.mk name (group.map (remainder (sharedStart group)))).Plain where
  distinct := by
    refine List.Nodup.map_on (fun right hright other hother heq => ?_) h.distinct
    obtain ⟨rest, hrest, hepsilon⟩ := h.exists_rest hright
    obtain ⟨rest', hrest', hepsilon'⟩ := h.exists_rest hother
    rw [hrest, hrest', remainder_append, remainder_append] at heq
    rw [hrest, hrest', spelled_injective hepsilon hepsilon' heq]
  inhabited := by
    intro right hright
    obtain ⟨member, hmember, rfl⟩ := List.mem_map.mp hright
    exact remainder_ne_nil (sharedStart_isPrefix hmember)
  epsilonAlone := by
    intro right hright hmem
    obtain ⟨member, hmember, rfl⟩ := List.mem_map.mp hright
    obtain ⟨rest, hrest, hepsilon⟩ := h.exists_rest hmember
    rw [hrest, remainder_append, spelled] at hmem ⊢
    split at hmem <;> simp_all

/-- Remainders that share their first symbol are shorter than the members of the group. -/
theorem remainders_sharesWithin (h : Branching (length + 1) group) :
    (Rule.mk name (group.map (remainder (sharedStart group)))).SharesWithin length := by
  have hplain : (Rule.mk name (group.map (remainder (sharedStart group)))).Plain := h.plain_remainders
  intro right hright other hother hne hhead
  obtain ⟨member, hmember, heq⟩ := List.mem_map.mp hright
  obtain ⟨rest, hrest, -⟩ := h.exists_rest hmember
  rw [hrest, remainder_append] at heq
  cases rest with
  -- nothing is left but `ε`, which then starts the other remainder and is alone there too
  | nil =>
    have hright' : right = [epsilon] := heq.symm
    rw [hright'] at hne hhead
    have hmem := List.mem_of_head? hhead.symm
    exact absurd (hplain.epsilonAlone other hother hmem).symm hne
  | cons symbol rest =>
    have hright' : right = symbol :: rest := heq.symm
    have hbound := h.bounded member hmember
    have hstart := List.length_pos_iff.mpr h.start
    rw [hrest, List.length_append] at hbound
    rw [hright']
    omega

end Branching

/-! ## One factoring -/

/-- The rule in the place of a factored one is plain: its alternatives start with different symbols. -/
theorem Factored.plain_entry (h : Factored rule entry fresh) (hrule : rule.Plain)
    (hshares : rule.SharesWithin length) (hepsilon : epsilon ∉ fresh.map Rule.left) : entry.Plain where
  distinct := h.nodup_heads.of_map _
  inhabited := h.inhabited entry List.mem_cons_self
  epsilonAlone := by
    intro right hright hmem
    obtain ⟨group, hgroup, hmember | ⟨hlength, name, rfl, hnew⟩⟩ :=
      FactoredGroups.exists_of_mem_rights h hright
    · exact hrule.epsilonAlone right (mem_rights_of_mem_group hgroup hmember) hmem
    · rcases List.mem_append.mp hmem with hstart | hname
      · obtain ⟨right, hright, hmem⟩ := exists_of_mem_sharedStart hstart
        exact absurd hmem ((hrule.branching hshares hgroup hlength).epsilonFree right hright)
      · obtain rfl := List.mem_singleton.mp hname
        exact absurd (List.mem_map_of_mem hnew) hepsilon

/-- **A factoring narrows**: alternatives that share their first symbol get shorter. -/
theorem Factored.narrows (h : Factored rule entry fresh) (hrule : rule.Plain)
    (hshares : rule.SharesWithin (length + 1)) (hepsilon : epsilon ∉ fresh.map Rule.left) :
    ∀ new ∈ entry :: fresh, new.Plain ∧ new.SharesWithin length := by
  intro new hnew
  rcases List.mem_cons.mp hnew with rfl | hnew
  · exact ⟨h.plain_entry hrule hshares hepsilon, Rule.sharesWithin_of_nodup h.nodup_heads length⟩
  · obtain ⟨left, rights⟩ := new
    obtain ⟨group, hgroup, hlength, heq⟩ := FactoredGroups.exists_of_mem_fresh h hnew
    obtain rfl : rights = _ := heq
    have hbranching := hrule.branching hshares hgroup hlength
    exact ⟨hbranching.plain_remainders, hbranching.remainders_sharesWithin⟩

/-- Plain rules in which alternatives that share their first symbol have at most `length` symbols. -/
def Narrow (length : Nat) (rules : List Rule) : Prop :=
  ∀ rule ∈ rules, rule.Plain ∧ rule.SharesWithin length

namespace Narrow

variable {rules : List Rule}

theorem mono {length' : Nat} (h : Narrow length rules) (hle : length ≤ length') : Narrow length' rules :=
  fun rule hrule => ⟨(h rule hrule).1, (h rule hrule).2.mono hle⟩

theorem nodup_heads (h : Narrow 1 rules) : ∀ rule ∈ rules, (rule.rights.map List.head?).Nodup :=
  fun rule hrule => (h rule hrule).1.nodup_heads (h rule hrule).2

end Narrow

namespace Grammar

variable {g : Grammar}

theorem nodup_heads_productions (h : Narrow 1 g.namedRules) :
    ∀ nt ∈ g.nonTerminals, (nt.productions.map List.head?).Nodup := by
  intro nt hnt
  have hrule : (⟨nt.name, nt.productions.map (·.map g.label)⟩ : Rule) ∈ g.namedRules :=
    List.mem_map.mpr ⟨nt, hnt, rfl⟩
  have hheads : (nt.productions.map (·.map g.label)).map List.head? =
      (nt.productions.map List.head?).map (Option.map g.label) := by
    simp [Function.comp_def]
  exact List.Nodup.of_map (Option.map g.label) (hheads ▸ h.nodup_heads _ hrule)

namespace WellFormed

variable (hg : g.WellFormed)
include hg

/-- **Factoring shortens what alternatives share** by at least one symbol. -/
theorem narrow_factorRules (h : Narrow (length + 1) g.namedRules) :
    Narrow length (factorRules g.names g.namedRules) := by
  intro new hnew
  obtain ⟨rule, hrule, entry, fresh, hstands, horigin⟩ :=
    (factorRules_replaced g.names g.namedRules).exists_of_mem_result hnew
  obtain ⟨hplain, hshares⟩ := h rule hrule
  have hepsilon : PredictiveGrammar.epsilon ∉ fresh.map Rule.left := fun hmem =>
    hstands.unused _ hmem (hg.uniquelyNamed.reserved_mem_names _ List.mem_cons_self)
  exact Factored.narrows hstands.replacement hplain hshares hepsilon new (List.mem_cons.mpr horigin)

/-- **Every factoring narrows**, so any number of them narrows by that number. -/
theorem transform_narrow (count : Nat) (h : Narrow length g.namedRules) :
    ∃ k, g.transform (List.replicate count .factorLeft) = .ok k ∧ k.WellFormed ∧
      Narrow (length - count) k.namedRules := by
  induction count generalizing g length with
  | zero => exact ⟨g, rfl, hg, h⟩
  | succ count ih =>
    obtain ⟨next, heq, hnext, -, hrules⟩ := hg.leftFactored
    have hwide : Narrow (length - 1 + 1) g.namedRules := h.mono (by omega)
    obtain ⟨k, hrun, hk, hnarrow⟩ := ih hnext (hrules ▸ hg.narrow_factorRules hwide)
    have hstep : Transformation.factorLeft.apply g = .ok next := heq
    refine ⟨k, (transform_cons hstep _).trans hrun, hk, ?_⟩
    rwa [Nat.add_comm, ← Nat.sub_sub]

/-! ## Indices -/

/-- The rules of a grammar with different productions in which `ε` stands alone. -/
theorem narrow_namedRules (hdistinct : ∀ nt ∈ g.nonTerminals, nt.productions.Nodup)
    (hepsilon : ∀ nt ∈ g.nonTerminals, ∀ production ∈ nt.productions,
      epsilonIndex ∈ production → production = [epsilonIndex])
    (hlength : ∀ nt ∈ g.nonTerminals, ∀ production ∈ nt.productions, production.length ≤ length) :
    Narrow length g.namedRules := by
  intro rule hrule
  have hinhabited := hg.tidy.inhabited rule hrule
  obtain ⟨nt, hnt, -, hrights⟩ := mem_namedRules.mp hrule
  refine ⟨⟨?_, hinhabited, ?_⟩, ?_⟩
  · rw [← hrights]
    refine List.Nodup.map_on (fun p hp q hq heq => ?_) (hdistinct nt hnt)
    exact hg.map_label_inj (hg.production_lt hnt hp) (hg.production_lt hnt hq) heq
  · intro right hright hmem
    rw [← hrights] at hright
    obtain ⟨p, hp, rfl⟩ := List.mem_map.mp hright
    obtain ⟨i, hi, hlabel⟩ := List.mem_map.mp hmem
    rw [← hg.label_epsilon] at hlabel
    obtain rfl := hg.label_inj (hg.production_lt hnt hp i hi) hg.epsilon_lt hlabel
    rw [hepsilon nt hnt p hp hi, List.map_singleton, hg.label_epsilon]
  · intro right hright _ _ _ _
    rw [← hrights] at hright
    obtain ⟨p, hp, rfl⟩ := List.mem_map.mp hright
    rw [List.length_map]
    exact hlength nt hnt p hp

/-- Where nothing is shared any more, another factoring keeps the rules. -/
theorem leftFactored_of_narrow (h : Narrow 1 g.namedRules) :
    ∃ k written, g.leftFactored = .ok k ∧ g.rules = .ok written ∧ k.rules = .ok written := by
  obtain ⟨k, hok, hk, -, hrules⟩ := hg.leftFactored
  refine ⟨k, g.namedRules, hok, hg.rules_eq, ?_⟩
  rw [hk.rules_eq, hrules, factorRules_eq_self hg.tidy.inhabited h.nodup_heads]

end WellFormed

/-- **Repeated factoring ends.** With different productions in which `ε` stands alone, one factoring less than the
longest production has symbols is enough: no two productions of a non-terminal start with the same symbol, and another
factoring keeps the rules. -/
theorem Built.repeatedFactoring_converges (hg : g.Built) (longest count : Nat)
    (hdistinct : ∀ nt ∈ g.nonTerminals, nt.productions.Nodup)
    (hepsilon : ∀ nt ∈ g.nonTerminals, ∀ production ∈ nt.productions,
      epsilonIndex ∈ production → production = [epsilonIndex])
    (hlongest : ∀ nt ∈ g.nonTerminals, ∀ production ∈ nt.productions, production.length ≤ longest)
    (hcount : longest - 1 ≤ count) :
    ∃ h, g.transform (List.replicate count .factorLeft) = .ok h ∧
      (∀ nt ∈ h.nonTerminals, (nt.productions.map List.head?).Nodup) ∧
      ∃ k written, h.leftFactored = .ok k ∧ h.rules = .ok written ∧ k.rules = .ok written := by
  have hnarrow := hg.wellFormed.narrow_namedRules hdistinct hepsilon hlongest
  obtain ⟨h, hrun, hwf, hnarrow⟩ := hg.wellFormed.transform_narrow count hnarrow
  have hone : Narrow 1 h.namedRules := hnarrow.mono (by omega)
  exact ⟨h, hrun, nodup_heads_productions hone, hwf.leftFactored_of_narrow hone⟩

/-- Alternatives that share two symbols in two stages, and one of which is the start of the others. -/
def nestedStarts : Grammar := .ofRules [⟨"S", [["a", "b", "c"], ["a", "b", "S"], ["a"], ["ε"]]⟩]

/-- The remainders of the first factoring share a symbol, those of the second do not. -/
theorem Built.repeatedFactoring_converges_nestedStarts :
    nestedStarts.Built ∧ ∃ h, nestedStarts.transform [.factorLeft, .factorLeft] = .ok h ∧
      (∀ nt ∈ h.nonTerminals, (nt.productions.map List.head?).Nodup) ∧
      ∃ k written, h.leftFactored = .ok k ∧ h.rules = .ok written ∧ k.rules = .ok written :=
  have hbuilt : nestedStarts.Built := .ofRules _
  ⟨hbuilt, Built.repeatedFactoring_converges hbuilt 3 2 (by decide) (by decide) (by decide) (by decide)⟩

end Grammar

end PredictiveGrammar
