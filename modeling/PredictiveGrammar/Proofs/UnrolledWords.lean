import PredictiveGrammar.Proofs.BaseCases
import PredictiveGrammar.Proofs.NamedWords
import PredictiveGrammar.Proofs.Unrolling

/-!
# Unrolling keeps the words

Unrolling gives the base `ε` to a rule that has none, and apart from that it changes no word
(`Unrolling.yields_iff`). A left-recursive rule yields a base and then any number of loops, the last loop expanded
first; its unrolled form expands the first loop first. So in one direction the invariant says that what the rule
yields can still be followed by whatever the fresh name yields (`Opens`), and in the other that what the fresh name
yields can follow whatever the rule yields (`Extends`).
-/

namespace PredictiveGrammar

/-- Rules and their unrolled form, where the names of the rules are in `used`. -/
structure Unrolling (used : List String) (rules rules' : List Rule) : Prop where
  /-- every rule is unrolled in its place -/
  replaced : Replaced Unrolled used rules rules'
  /-- the rules are tidy -/
  tidy : Tidy rules
  /-- so are the unrolled ones -/
  tidy' : Tidy rules'
  /-- alternatives hold used names only -/
  right_mem : ∀ rule ∈ rules, ∀ right ∈ rule.rights, ∀ name ∈ right, name ∈ used
  /-- so is `ε` -/
  epsilon_mem : epsilon ∈ used

/-- A recursive rule that is unrolled with a fresh name. -/
structure Loops (used : List String) (rules rules' : List Rule) (rule : Rule) (name : String) : Prop where
  /-- the rule is there -/
  mem : rule ∈ rules
  /-- it is recursive -/
  loops : rule.loops ≠ []
  /-- the name is fresh -/
  unused : name ∉ used
  /-- its entry is there -/
  entry : rule.entry name ∈ rules'
  /-- its loop is there -/
  loop : rule.loop name ∈ rules'

/-- What the rule yields here can still be followed by what the fresh name yields. -/
def Opens (rules : List Rule) (rule : Rule) (name : String) (u : List String) : Prop :=
  ∀ x, Yields rules [name] x → Yields rules [rule.left] (u ++ x)

/-- This can follow whatever the rule yields. -/
def Extends (rules : List Rule) (rule : Rule) (v : List String) : Prop :=
  ∀ y, Yields rules [rule.left] y → Yields rules [rule.left] (y ++ v)

variable {used : List String} {rules rules' : List Rule} {rule : Rule} {name : String}
  {s w u v right : List String}

/-! ## Going round the loop -/

/-- What a loop yields, the rest of a recursive alternative yields. -/
theorem Rule.exists_rest_of_mem_loops (hleft : epsilon ∉ rules.map Rule.left) {loop : List String}
    (hloop : loop ∈ rule.loops) (h : Yields rules loop v) :
    ∃ rest, rule.left :: rest ∈ rule.rights ∧ Yields rules rest v := by
  obtain ⟨rest, hmem, rfl⟩ := Rule.mem_loops.mp hloop
  refine ⟨rest, hmem, ?_⟩
  cases rest with
  | nil =>
    obtain rfl := Yields.eq_nil_of_epsilon hleft h
    exact .nil
  | cons name rest => exact h

/-- What stands behind the left side yields what a loop does, since `ε` in place of nothing yields the same word. -/
theorem Rule.exists_loop_of_rest {rest : List String} (hmem : rule.left :: rest ∈ rule.rights)
    (h : Yields rules rest v) : ∃ loop ∈ rule.loops, Yields rules loop v := by
  refine ⟨_, Rule.mem_loops.mpr ⟨rest, hmem, rfl⟩, ?_⟩
  cases rest with
  | nil => exact .silent h
  | cons name rest => exact h

namespace Loops

variable (hl : Loops used rules rules' rule name)
include hl

/-- The loop can be left out. -/
theorem yields_nil : Yields rules' [name] [] :=
  .single hl.loop (Rule.mem_rights_loop.mpr (Or.inr rfl)) (.silent .nil)

/-- The loop can be made once more, in front. -/
theorem yields_append {loop x : List String} (hloop : loop ∈ rule.loops) (h : Yields rules' loop v)
    (hx : Yields rules' [name] x) : Yields rules' [name] (v ++ x) :=
  .single hl.loop (Rule.mem_rights_loop.mpr (Or.inl ⟨loop, hloop, rfl⟩)) (h.append hx)

/-- Whatever a base yields opens the rule. -/
theorem opens_base {base : List String} (hbase : base ∈ rule.bases ∨ rule.bases = [] ∧ base = [])
    (h : Yields rules' base u) : Opens rules' rule name u := by
  intro x hx
  have hentry : Yields rules' [(rule.entry name).left] (u ++ x) :=
    .single hl.entry (Rule.mem_rights_entry.mpr ⟨base, hbase, rfl⟩) (h.append hx)
  exact hentry

/-- After an opening one more loop can be made. -/
theorem opens_append (hu : Opens rules' rule name u) {loop : List String} (hloop : loop ∈ rule.loops)
    (h : Yields rules' loop v) : Opens rules' rule name (u ++ v) := by
  intro x hx
  rw [List.append_assoc]
  exact hu _ (hl.yields_append hloop h hx)

/-- Whatever a base of the rule yields, the rule with its base case yields. -/
theorem yields_of_base {base : List String} (hbase : base ∈ rule.bases ∨ rule.bases = [] ∧ base = [])
    (h : Yields (rules.map Rule.withBaseCase) base u) :
    Yields (rules.map Rule.withBaseCase) [rule.left] u := by
  have hrule : rule.withBaseCase ∈ rules.map Rule.withBaseCase := List.mem_map_of_mem hl.mem
  rw [← Rule.left_withBaseCase]
  rcases hbase with hbase | ⟨hbases, rfl⟩
  · exact .single hrule (Rule.mem_rights_withBaseCase.mpr (Or.inl (Rule.mem_bases.mp hbase).1)) h
  · have hright := Rule.mem_rights_withBaseCase.mpr
      (Or.inr ⟨Rule.rights_ne_nil_of_loops hl.loops, hbases, rfl⟩)
    exact .single hrule hright (.silent h)

/-- An opening is a word of the rule. -/
theorem yields_of_opens (hu : Opens rules' rule name u) : Yields rules' [rule.left] u := by
  have hclosed := hu [] hl.yields_nil
  rwa [List.append_nil] at hclosed

end Loops

/-- Where a recursive alternative is possible, what its rest yields can follow. -/
theorem extends_of_rest {rule' : Rule} (hrule : rule' ∈ rules) (hleft : rule'.left = rule.left)
    {rest : List String} (hmem : rule.left :: rest ∈ rule'.rights) (h : Yields rules rest v) :
    Extends rules rule v := by
  intro y hy
  rw [← hleft]
  exact .single hrule hmem (hy.append h)

theorem extends_nil (rules : List Rule) (rule : Rule) : Extends rules rule [] := by
  intro y hy
  rwa [List.append_nil]

/-- Extensions can be put behind each other. -/
theorem Extends.append (hu : Extends rules rule u) (hv : Extends rules rule v) :
    Extends rules rule (u ++ v) := by
  intro y hy
  rw [← List.append_assoc]
  exact hv _ (hu y hy)

namespace Unrolling

variable (hU : Unrolling used rules rules')
include hU

/-! ## Rules and names on both sides -/

theorem epsilon_notMem : epsilon ∉ (rules.map Rule.withBaseCase).map Rule.left := by
  rw [lefts_withBaseCase]
  intro h
  obtain ⟨rule, hrule, hleft⟩ := List.mem_map.mp h
  exact hU.tidy.unreserved rule hrule (hleft ▸ List.mem_cons_self)

theorem epsilon_notMem' : epsilon ∉ rules'.map Rule.left := by
  intro h
  obtain ⟨rule, hrule, hleft⟩ := List.mem_map.mp h
  exact hU.tidy'.unreserved rule hrule (hleft ▸ List.mem_cons_self)

/-- The fresh name of a loop determines the rule that it is for. -/
theorem eq_loop (hl : Loops used rules rules' rule name) {new : Rule} (hnew : new ∈ rules')
    (hleft : new.left = name) : new = rule.loop name :=
  hU.tidy'.rule_ext hnew hl.loop hleft

/-- A rule stays or is unrolled. -/
theorem keep_or_loops (hrule : rule ∈ rules) :
    rule.loops = [] ∧ rule ∈ rules' ∨ ∃ name, Loops used rules rules' rule name := by
  obtain ⟨entry, fresh, hlocal, -, hunused, hsubset⟩ := hU.replaced.exists_of_mem hrule
  cases hlocal with
  | keep hloops => exact Or.inl ⟨hloops, hsubset List.mem_cons_self⟩
  | unroll name hloops =>
    refine Or.inr ⟨name, hrule, hloops, hunused name List.mem_cons_self, hsubset List.mem_cons_self, ?_⟩
    exact hsubset (List.mem_cons_of_mem _ List.mem_cons_self)

/-- A rule of the unrolled rules with a used name is a rule that stayed or the entry of one that did not. -/
theorem keep_or_entry {new : Rule} (hnew : new ∈ rules') (hleft : new.left ∈ used) :
    new ∈ rules ∧ new.loops = [] ∨ ∃ rule name, Loops used rules rules' rule name ∧ new = rule.entry name := by
  obtain ⟨rule, hrule, fresh, hlocal, -, hunused, hsubset⟩ := hU.replaced.exists_of_left_mem hnew hleft
  cases hlocal with
  | keep hloops => exact Or.inl ⟨hrule, hloops⟩
  | unroll name hloops =>
    refine Or.inr ⟨rule, name, ⟨hrule, hloops, hunused name List.mem_cons_self, hnew, ?_⟩, rfl⟩
    exact hsubset (List.mem_cons_of_mem _ List.mem_cons_self)

theorem base_mem_used (hrule : rule ∈ rules) {base : List String}
    (hbase : base ∈ rule.bases ∨ rule.bases = [] ∧ base = []) : ∀ n ∈ base, n ∈ used := by
  rcases hbase with hbase | ⟨-, rfl⟩
  · exact hU.right_mem rule hrule base (Rule.mem_bases.mp hbase).1
  · exact fun n hn => absurd hn List.not_mem_nil

theorem loop_mem_used (hrule : rule ∈ rules) {loop : List String} (hloop : loop ∈ rule.loops) :
    ∀ n ∈ loop, n ∈ used := by
  obtain ⟨rest, hmem, rfl⟩ := Rule.mem_loops.mp hloop
  intro n hn
  split at hn
  · obtain rfl := List.mem_singleton.mp hn
    exact hU.epsilon_mem
  · exact hU.right_mem rule hrule _ hmem n (List.mem_cons_of_mem _ hn)

/-! ## From the rules to the unrolled rules -/

/-- Every alternative of a recursive rule, taken once, opens it: a base does, and a recursive alternative makes one
more loop after what the rule itself opens with. -/
theorem opens_of_right (hl : Loops used rules rules' rule name) (hright : right ∈ rule.withBaseCase.rights)
    (h : Yields rules' right u)
    (hself : ∀ rest, right = rule.left :: rest →
      ∃ u₁ u₂, u = u₁ ++ u₂ ∧ Opens rules' rule name u₁ ∧ Yields rules' rest u₂) :
    Opens rules' rule name u := by
  rcases Rule.mem_rights_withBaseCase.mp hright with hright | ⟨-, hbases, rfl⟩
  -- a recursive alternative opens the rule with one more loop
  · by_cases hhead : right.head? = some rule.left
    · obtain ⟨rest, rfl⟩ := List.head?_eq_some_iff.mp hhead
      obtain ⟨u₁, u₂, rfl, hopens, hrest⟩ := hself rest rfl
      obtain ⟨loop, hloop, hyields⟩ := Rule.exists_loop_of_rest hright hrest
      exact hl.opens_append hopens hloop hyields
    · exact hl.opens_base (Or.inl (Rule.mem_bases.mpr ⟨hright, hhead⟩)) h
  · obtain rfl := Yields.eq_nil_of_epsilon hU.epsilon_notMem' h
    exact hl.opens_base (Or.inr ⟨hbases, rfl⟩) .nil

/-- **What the rules yield, the unrolled rules yield**, and a recursive rule in front is left open. -/
theorem yields_unrolled (h : Yields (rules.map Rule.withBaseCase) s w) (hs : ∀ n ∈ s, n ∈ used) :
    Yields rules' s w ∧ ∀ rule rest name, s = rule.left :: rest → Loops used rules rules' rule name →
      ∃ u v, w = u ++ v ∧ Opens rules' rule name u ∧ Yields rules' rest v := by
  induction h with
  | nil => exact ⟨.nil, fun _ _ _ heq => by cases heq⟩
  | silent _ ih =>
    refine ⟨.silent (ih fun n hn => hs n (List.mem_cons_of_mem _ hn)).1, fun rule rest name heq hl => ?_⟩
    obtain ⟨heq, -⟩ := List.cons.inj heq
    exact absurd (heq ▸ List.mem_cons_self) (hU.tidy.unreserved rule hl.mem)
  | @terminal n _ _ hne hleft _ ih =>
    rw [lefts_withBaseCase] at hleft
    refine ⟨.terminal hne (fun hmem => ?_) (ih fun m hm => hs m (List.mem_cons_of_mem _ hm)).1,
      fun rule rest name heq hl => ?_⟩
    · rcases hU.replaced.left_mem_or_fresh hmem with hold | hfresh
      · exact hleft hold
      · exact hfresh (hs n List.mem_cons_self)
    · obtain ⟨rfl, -⟩ := List.cons.inj heq
      exact absurd (List.mem_map_of_mem hl.mem) hleft
  | @expand rule₀ right s u v hrule hright _ _ ihu ihv =>
    obtain ⟨rule, hmem, rfl⟩ := List.mem_map.mp hrule
    rw [Rule.left_withBaseCase] at hs ⊢
    have hrightUsed : ∀ n ∈ right, n ∈ used := by
      rcases Rule.mem_rights_withBaseCase.mp hright with hright | ⟨-, -, rfl⟩
      · exact hU.right_mem rule hmem right hright
      · exact List.forall_mem_singleton.mpr hU.epsilon_mem
    obtain ⟨hu, hself⟩ := ihu hrightUsed
    obtain ⟨hv, -⟩ := ihv fun n hn => hs n (List.mem_cons_of_mem _ hn)
    -- for a rule that is not recursive this says nothing
    have hopens : ∀ name, Loops used rules rules' rule name → Opens rules' rule name u :=
      fun name hl => hU.opens_of_right hl hright hu fun rest heq => hself rule rest name heq hl
    refine ⟨?_, fun other rest name heq hl => ?_⟩
    · rcases hU.keep_or_loops hmem with ⟨hloops, hmem'⟩ | ⟨name, hl⟩
      · rw [Rule.withBaseCase_of_loops hloops] at hright
        exact .expand hmem' hright hu hv
      · exact (hl.yields_of_opens (hopens name hl)).append hv
    · obtain ⟨hleft, rfl⟩ := List.cons.inj heq
      obtain rfl := hU.tidy.rule_ext hmem hl.mem hleft
      exact ⟨u, v, rfl, hopens name hl, hv⟩

/-! ## From the unrolled rules to the rules -/

/-- What a loop yields can follow whatever the rule yields. -/
theorem extends_of_loop (hl : Loops used rules rules' rule name) {loop : List String}
    (hloop : loop ∈ rule.loops) (h : Yields (rules.map Rule.withBaseCase) loop v) :
    Extends (rules.map Rule.withBaseCase) rule v := by
  obtain ⟨rest, hmem, hrest⟩ := Rule.exists_rest_of_mem_loops hU.epsilon_notMem hloop h
  exact extends_of_rest (List.mem_map_of_mem hl.mem) rule.left_withBaseCase
    (Rule.mem_rights_withBaseCase.mpr (Or.inl hmem)) hrest

/-- **What the unrolled rules yield, the rules yield**, and what a fresh name at the end yields can follow whatever
its rule yields. -/
theorem yields_of_unrolled (h : Yields rules' s w) :
    ((∀ n ∈ s, n ∈ used) → Yields (rules.map Rule.withBaseCase) s w) ∧
      ∀ rule name x, Loops used rules rules' rule name → s = x ++ [name] → (∀ n ∈ x, n ∈ used) →
        ∃ u v, w = u ++ v ∧ Yields (rules.map Rule.withBaseCase) x u ∧
          Extends (rules.map Rule.withBaseCase) rule v := by
  induction h with
  | nil =>
    refine ⟨fun _ => .nil, fun rule name x _ heq => ?_⟩
    exact absurd heq.symm (List.append_ne_nil_of_right_ne_nil x (List.cons_ne_nil name []))
  | silent _ ih =>
    refine ⟨fun hs => .silent (ih.1 fun n hn => hs n (List.mem_cons_of_mem _ hn)),
      fun rule name x hl heq hx => ?_⟩
    cases x with
    | nil =>
      obtain ⟨rfl, -⟩ := List.cons.inj heq
      exact absurd hU.epsilon_mem hl.unused
    | cons n x =>
      obtain ⟨rfl, hrest⟩ := List.cons.inj heq
      obtain ⟨u, v, rfl, hu, hv⟩ := ih.2 rule name x hl hrest fun m hm => hx m (List.mem_cons_of_mem _ hm)
      exact ⟨u, v, rfl, .silent hu, hv⟩
  | @terminal n _ _ hne hleft _ ih =>
    have hold : n ∉ (rules.map Rule.withBaseCase).map Rule.left := by
      rw [lefts_withBaseCase]
      exact fun hmem => hleft (hU.replaced.left_mem hmem)
    refine ⟨fun hs => .terminal hne hold (ih.1 fun m hm => hs m (List.mem_cons_of_mem _ hm)),
      fun rule name x hl heq hx => ?_⟩
    cases x with
    | nil =>
      obtain ⟨rfl, -⟩ := List.cons.inj heq
      have hmem : (rule.loop n).left ∈ rules'.map Rule.left := List.mem_map_of_mem hl.loop
      exact absurd hmem hleft
    | cons m x =>
      obtain ⟨rfl, hrest⟩ := List.cons.inj heq
      obtain ⟨u, v, rfl, hu, hv⟩ := ih.2 rule name x hl hrest fun m hm => hx m (List.mem_cons_of_mem _ hm)
      exact ⟨n :: u, v, rfl, .terminal hne hold hu, hv⟩
  | @expand new right s u v hnew hright _ hyieldsv ihu ihv =>
    -- an old left side by itself; the fresh names are dealt with below
    have hself : new.left ∈ used → Yields (rules.map Rule.withBaseCase) [new.left] u := by
      intro hleft
      rcases hU.keep_or_entry hnew hleft with ⟨hrule, hloops⟩ | ⟨rule, name, hl, rfl⟩
      · have hmem : new ∈ rules.map Rule.withBaseCase := by
          rw [← Rule.withBaseCase_of_loops hloops]
          exact List.mem_map_of_mem hrule
        exact .single hmem hright (ihu.1 (hU.right_mem new hrule right hright))
      · obtain ⟨base, hbase, rfl⟩ := Rule.mem_rights_entry.mp hright
        obtain ⟨u₁, u₂, rfl, hu₁, hextends⟩ :=
          ihu.2 rule name base hl rfl (hU.base_mem_used hl.mem hbase)
        exact hextends _ (hl.yields_of_base hbase hu₁)
    refine ⟨fun hs => (hself (hs _ List.mem_cons_self)).append
      (ihv.1 fun n hn => hs n (List.mem_cons_of_mem _ hn)), fun rule name x hl heq hx => ?_⟩
    cases x with
    | nil =>
      -- the fresh name itself: nothing, or a loop and the fresh name again
      obtain ⟨hleft, rfl⟩ := List.cons.inj heq
      obtain rfl := hU.eq_loop hl hnew hleft
      obtain rfl : v = [] := by
        cases hyieldsv
        rfl
      refine ⟨[], u, by rw [List.append_nil, List.nil_append], .nil, ?_⟩
      rcases Rule.mem_rights_loop.mp hright with ⟨loop, hloop, rfl⟩ | rfl
      · obtain ⟨u₁, u₂, rfl, hu₁, hextends⟩ := ihu.2 rule name loop hl rfl (hU.loop_mem_used hl.mem hloop)
        exact (hU.extends_of_loop hl hloop hu₁).append hextends
      · obtain rfl := Yields.eq_nil_of_epsilon hU.epsilon_notMem' ‹Yields rules' [epsilon] u›
        exact extends_nil _ rule
    | cons n x =>
      obtain ⟨rfl, hrest⟩ := List.cons.inj heq
      obtain ⟨u', v', rfl, hu', hv'⟩ := ihv.2 rule name x hl hrest fun m hm => hx m (List.mem_cons_of_mem _ hm)
      have hfront := (hself (hx _ List.mem_cons_self)).append hu'
      exact ⟨u ++ u', v', (List.append_assoc _ _ _).symm, hfront, hv'⟩

/-- **Unrolling keeps the words** of old names, up to the base cases it adds. -/
theorem yields_iff (hs : ∀ n ∈ s, n ∈ used) :
    Yields rules' s w ↔ Yields (rules.map Rule.withBaseCase) s w :=
  ⟨fun h => (hU.yields_of_unrolled h).1 hs, fun h => (hU.yields_unrolled h hs).1⟩

end Unrolling

end PredictiveGrammar
