import PredictiveGrammar.Proofs.LeftRecursionWords
import PredictiveGrammar.Proofs.NamedSets

/-!
# FIRST and FOLLOW without left recursion

The fresh name of a loop starts with what one loop starts with, and can vanish. So if every recursive rule has a base,
next to the rules they came from the unrolled rules change no FIRST set (`BasedUnrolling.startsWith_iff`). The start of
a loop follows the left side of a recursive rule, and after unrolling it follows what stands at the end of a base or of
a loop instead; nothing else changes in FOLLOW sets (`BasedUnrolling.followedBy_iff`).
-/

namespace PredictiveGrammar

/-- Rules and their unrolled form, where every recursive rule has a base. -/
structure BasedUnrolling (used : List String) (rules rules' : List Rule) : Prop
    extends Unrolling used rules rules' where
  /-- left sides are used names -/
  left_mem : ∀ rule ∈ rules, rule.left ∈ used
  /-- a recursive rule has a base -/
  based : ∀ rule ∈ rules, rule.loops ≠ [] → rule.bases ≠ []

/-- The rule with its own left side left out of its alternatives. -/
def Rule.once (rule : Rule) : Rule := ⟨rule.left, rule.rights.map (·.filter (· ≠ rule.left))⟩

/-- The rules before, and those of the rules behind that are for names not in use, each without itself. -/
def withOnce (used : List String) (rules rules' : List Rule) : List Rule :=
  rules ++ (rules'.filter fun rule => rule.left ∉ used).map Rule.once

/-- What one of the loops of the left side starts with. -/
def LoopsWith (rules : List Rule) (left a : String) : Prop :=
  ∃ rule ∈ rules, rule.left = left ∧ ∃ rest, left :: rest ∈ rule.rights ∧ a ≠ epsilon ∧ StartsWith rules rest a

/-- Where a name with something behind it in an alternative comes from, if the rule has this left side after
unrolling. -/
inductive Origin (used : List String) (rules rules' : List Rule) (left name : String) (rest : List String) : Prop
  /-- the fresh name of a loop, at the end -/
  | last {owner : String} : rest = [] → Owner used rules' owner name → Owner used rules' owner left →
      Origin used rules rules' left name rest
  /-- an occurrence before; what stands behind it there starts with as much, or vanishes before a loop -/
  | before {rule : Rule} {before rest' : List String} : name ∈ used → rule ∈ rules →
      Owner used rules' rule.left left → before ++ name :: rest' ∈ rule.rights →
      (∀ a, StartsWith rules' rest a →
        StartsWith rules rest' a ∨ StartsWith rules rest' epsilon ∧ LoopsWith rules rule.left a) →
      Origin used rules rules' left name rest

variable {used : List String} {rules rules' : List Rule} {rule new : Rule} {s right before rest : List String}
  {start : Option String} {name owner a : String}

theorem mem_withOnce :
    rule ∈ withOnce used rules rules' ↔ rule ∈ rules ∨ ∃ new ∈ rules', new.left ∉ used ∧ new.once = rule := by
  simp [withOnce, and_assoc]

/-- Under any tidy rules, the start of a loop is one of the rest of a recursive alternative. -/
theorem Rule.exists_rest_of_startsWith {all : List Rule} (hall : Tidy all) {loop : List String}
    (hloop : loop ∈ rule.loops) (h : StartsWith all loop a) :
    ∃ rest, rule.left :: rest ∈ rule.rights ∧ StartsWith all rest a := by
  obtain ⟨rest, hmem, rfl⟩ := Rule.mem_loops.mp hloop
  exact ⟨rest, hmem, (startsWith_spelled hall.epsilon_notMem).mp h⟩

/-! ## Loops -/

theorem LoopsWith.ne_epsilon (h : LoopsWith rules name a) : a ≠ epsilon := by
  obtain ⟨-, -, -, -, -, hne, -⟩ := h
  exact hne

/-- The start of a loop follows the left side. -/
theorem LoopsWith.followedBy (h : LoopsWith rules name a) : FollowedBy rules start name a := by
  obtain ⟨rule, hrule, rfl, rest, hmem, hne, hrest⟩ := h
  have hright : [] ++ rule.left :: rest ∈ rule.rights := hmem
  exact .next hrule hright (List.mem_map_of_mem hrule) hne hrest

namespace Loops

variable (hl : Loops used rules rules' rule name)
include hl

theorem startsWith_epsilon : StartsWith rules' [name] epsilon :=
  .single hl.loop (Rule.mem_rights_loop.mpr (Or.inr rfl)) (.silent .nil)

/-- The fresh name takes nothing away from what stands in front of it. -/
theorem startsWith_append (h : StartsWith rules' s a) : StartsWith rules' (s ++ [name]) a := by
  rw [PredictiveGrammar.startsWith_append]
  by_cases h0 : a = epsilon
  · subst h0
    exact Or.inr ⟨h, hl.startsWith_epsilon⟩
  · exact Or.inl ⟨h, h0⟩

/-- The fresh name starts with what a loop starts with. -/
theorem startsWith_of_loop {loop : List String} (hloop : loop ∈ rule.loops) (h : StartsWith rules' loop a) :
    StartsWith rules' [name] a :=
  .single hl.loop (Rule.mem_rights_loop.mpr (Or.inl ⟨loop, hloop, rfl⟩)) (hl.startsWith_append h)

/-- So it starts with what a recursive alternative has behind the left side. -/
theorem startsWith_of_rest (hright : rule.left :: rest ∈ rule.rights) (h : StartsWith rules' rest a)
    (hr' : Tidy rules') : StartsWith rules' [name] a :=
  hl.startsWith_of_loop (Rule.mem_loops.mpr ⟨rest, hright, rfl⟩) ((startsWith_spelled hr'.epsilon_notMem).mpr h)

theorem once_mem : (rule.loop name).once ∈ withOnce used rules rules' :=
  mem_withOnce.mpr (Or.inr ⟨_, hl.loop, hl.unused, rfl⟩)

theorem mem_withOnce : rule ∈ withOnce used rules rules' := PredictiveGrammar.mem_withOnce.mpr (Or.inl hl.mem)

end Loops

namespace BasedUnrolling

variable (hU : BasedUnrolling used rules rules')
include hU

/-- A rule with a fresh name is a loop. -/
theorem exists_loops (hnew : new ∈ rules') (hleft : new.left ∉ used) :
    ∃ rule, Loops used rules rules' rule new.left ∧ new = rule.loop new.left := by
  obtain ⟨rule, hrule, entry, fresh, ⟨hlocal, heq, hunused, hsubset⟩, horigin⟩ := hU.replaced.exists_of_mem_result hnew
  have hused := hU.left_mem rule hrule
  rcases horigin with rfl | hfresh
  · exact absurd (heq ▸ hused) hleft
  · cases hlocal with
    | keep => cases hfresh
    | unroll name hloops =>
      obtain rfl := List.mem_singleton.mp hfresh
      exact ⟨rule, ⟨hrule, hloops, hleft, hsubset List.mem_cons_self, hnew⟩, rfl⟩

/-- The alternatives of the entry are the bases before the fresh name. -/
theorem mem_rights_entry (hl : Loops used rules rules' rule name) :
    right ∈ (rule.entry name).rights ↔ ∃ base ∈ rule.bases, base ++ [name] = right := by
  rw [Rule.mem_rights_entry]
  refine exists_congr fun base => and_congr_left fun _ => or_iff_left ?_
  exact fun hnone => hU.based rule hl.mem hl.loops hnone.1

/-- Gone through once, a loop has the loops as alternatives, and `ε`. -/
theorem mem_rights_once (hl : Loops used rules rules' rule name) :
    right ∈ (rule.loop name).once.rights ↔ right ∈ rule.loops ∨ right = [epsilon] := by
  -- only the name of the loop is left out of an alternative
  have hfilter : ∀ l : List String, (∀ n ∈ l, n ∈ used) → l.filter (· ≠ name) = l := by
    refine fun l hmem => List.filter_eq_self.mpr fun n hn => decide_eq_true ?_
    rintro rfl
    exact hl.unused (hmem n hn)
  have hepsilon := hfilter [epsilon] (List.forall_mem_singleton.mpr hU.epsilon_mem)
  have hloop : ∀ loop ∈ rule.loops, (loop ++ [name]).filter (· ≠ name) = loop := by
    intro loop hloop
    rw [List.filter_append, hfilter loop (hU.loop_mem_used hl.mem hloop)]
    simp
  rw [Rule.once, List.mem_map]
  refine ⟨?_, ?_⟩
  · rintro ⟨other, hother, rfl⟩
    rcases Rule.mem_rights_loop.mp hother with ⟨loop, hmem, rfl⟩ | rfl
    · exact Or.inl ((hloop loop hmem).symm ▸ hmem)
    · exact Or.inr hepsilon
  · rintro (hmem | rfl)
    · exact ⟨_, Rule.mem_rights_loop.mpr (Or.inl ⟨right, hmem, rfl⟩), hloop right hmem⟩
    · exact ⟨_, Rule.mem_rights_loop.mpr (Or.inr rfl), hepsilon⟩

theorem exists_of_mem_withOnce (hrule : rule ∈ withOnce used rules rules') :
    rule ∈ rules ∨ ∃ source name, Loops used rules rules' source name ∧ rule = (source.loop name).once := by
  refine (mem_withOnce.mp hrule).imp_right ?_
  rintro ⟨new, hnew, hleft, rfl⟩
  obtain ⟨source, hl, heq⟩ := hU.exists_loops hnew hleft
  exact ⟨source, new.left, hl, congrArg Rule.once heq⟩

theorem tidy_withOnce : Tidy (withOnce used rules rules') := by
  have hfilter := hU.tidy'.filter fun rule => rule.left ∉ used
  refine hU.tidy.append ⟨?_, ?_, ?_⟩ ?_
  -- left sides are distinct and not reserved, since those of the fresh rules are
  · rw [List.map_map]
    exact hfilter.distinct
  · rintro _ honce
    obtain ⟨new, hnew, rfl⟩ := List.mem_map.mp honce
    exact hfilter.unreserved new hnew
  -- loops are not empty
  · rintro _ honce right hright
    obtain ⟨new, hnew, rfl⟩ := List.mem_map.mp honce
    obtain ⟨source, hl, heq⟩ := hU.exists_loops (List.mem_of_mem_filter hnew)
      (of_decide_eq_true (List.mem_filter.mp hnew).2)
    rw [heq, hU.mem_rights_once hl] at hright
    rcases hright with hloop | rfl
    · obtain ⟨rest, -, rfl⟩ := Rule.mem_loops.mp hloop
      exact spelled_ne_nil rest
    · exact List.cons_ne_nil _ _
  -- a fresh left side is no old one
  · rintro _ honce hleft
    obtain ⟨new, hnew, rfl⟩ := List.mem_map.mp honce
    obtain ⟨rule, hrule, heq⟩ := List.mem_map.mp hleft
    have hused : new.left ∈ used := heq ▸ hU.left_mem rule hrule
    exact of_decide_eq_true (List.mem_filter.mp hnew).2 hused

theorem mem_lefts_withOnce : name ∈ (withOnce used rules rules').map Rule.left ↔ name ∈ rules'.map Rule.left := by
  rw [withOnce, List.map_append, List.mem_append, List.map_map]
  exact hU.replaced.mem_lefts_iff.symm

/-! ## FIRST -/

/-- After unrolling a recursive rule starts with what a base before the fresh name starts with. -/
theorem startsWith_left_iff (hl : Loops used rules rules' rule name) :
    StartsWith rules' [rule.left] a ↔ ∃ base ∈ rule.bases, StartsWith rules' (base ++ [name]) a := by
  refine (hU.tidy'.startsWith_left hl.entry).trans ?_
  refine ⟨?_, fun ⟨base, hbase, h⟩ => ⟨_, (hU.mem_rights_entry hl).mpr ⟨base, hbase, rfl⟩, h⟩⟩
  rintro ⟨right, hright, h⟩
  obtain ⟨base, hbase, rfl⟩ := (hU.mem_rights_entry hl).mp hright
  exact ⟨base, hbase, h⟩

/-- **The unrolled rules allow for the alternatives of the rules.** A recursive one needs the left side to vanish, and
then a base does, so the loop comes to the front. -/
theorem startsWith_of_right (hrule : rule ∈ rules) (hright : right ∈ rule.rights) (h : StartsWith rules' right a) :
    StartsWith rules' [rule.left] a := by
  rcases hU.keep_or_loops hrule with ⟨-, hkept⟩ | ⟨name, hl⟩
  · exact .single hkept hright h
  by_cases hhead : right.head? = some rule.left
  · obtain ⟨rest, rfl⟩ := List.head?_eq_some_iff.mp hhead
    rcases startsWith_cons.mp h with ⟨hself, -⟩ | ⟨h0, hrest⟩
    · exact hself
    · obtain ⟨base, hbase, hvanish⟩ := (hU.startsWith_left_iff hl).mp h0
      obtain ⟨-, hne⟩ | ⟨hbase0, -⟩ := startsWith_append.mp hvanish
      · exact absurd rfl hne
      · have hname := hl.startsWith_of_rest hright hrest hU.tidy'
        exact (hU.startsWith_left_iff hl).mpr ⟨base, hbase, startsWith_append.mpr (Or.inr ⟨hbase0, hname⟩)⟩
  · exact (hU.startsWith_left_iff hl).mpr ⟨right, Rule.mem_bases.mpr ⟨hright, hhead⟩, hl.startsWith_append h⟩

theorem startsWith_of_once (hl : Loops used rules rules' rule name) (hright : right ∈ (rule.loop name).once.rights)
    (h : StartsWith rules' right a) : StartsWith rules' [name] a := by
  rcases (hU.mem_rights_once hl).mp hright with hloop | rfl
  · exact hl.startsWith_of_loop hloop h
  · exact .single hl.loop (Rule.mem_rights_loop.mpr (Or.inr rfl)) h

/-- The fresh name gone through once starts with what a recursive alternative has behind the left side. -/
theorem startsWith_name_withOnce (hl : Loops used rules rules' rule name) :
    StartsWith (withOnce used rules rules') [name] a ↔
      a = epsilon ∨ ∃ rest, rule.left :: rest ∈ rule.rights ∧ StartsWith (withOnce used rules rules') rest a := by
  have hr := hU.tidy_withOnce
  refine (hr.startsWith_left hl.once_mem).trans ⟨?_, ?_⟩
  · rintro ⟨right, hright, h⟩
    rcases (hU.mem_rights_once hl).mp hright with hloop | rfl
    · exact Or.inr (Rule.exists_rest_of_startsWith hr hloop h)
    · rw [← spelled_nil, startsWith_spelled hr.epsilon_notMem] at h
      exact Or.inl h.eq_epsilon_of_nil
  · rintro (rfl | ⟨rest, hmem, h⟩)
    · exact ⟨_, (hU.mem_rights_once hl).mpr (Or.inr rfl), .silent .nil⟩
    · exact ⟨_, (hU.mem_rights_once hl).mpr (Or.inl (Rule.mem_loops.mpr ⟨rest, hmem, rfl⟩)),
        (startsWith_spelled hr.epsilon_notMem).mpr h⟩

/-- **The rules and the loops gone through once allow for the alternatives of the unrolled rules.** -/
theorem startsWith_of_right' (hnew : new ∈ rules') (hright : right ∈ new.rights)
    (h : StartsWith (withOnce used rules rules') right a) : StartsWith (withOnce used rules rules') [new.left] a := by
  by_cases hleft : new.left ∈ used
  · rcases hU.keep_or_entry hnew hleft with ⟨hrule, -⟩ | ⟨rule, name, hl, rfl⟩
    · exact .single (mem_withOnce.mpr (Or.inl hrule)) hright h
    · obtain ⟨base, hbase, rfl⟩ := (hU.mem_rights_entry hl).mp hright
      have hbase' := (Rule.mem_bases.mp hbase).1
      have hself : ∀ {right a}, right ∈ rule.rights → StartsWith (withOnce used rules rules') right a →
          StartsWith (withOnce used rules rules') [rule.left] a := .single hl.mem_withOnce
      rcases startsWith_append.mp h with ⟨h, -⟩ | ⟨h0, h⟩
      · exact hself hbase' h
      -- the base vanishes, so the left side does, and the loop comes to the front
      · rcases (hU.startsWith_name_withOnce hl).mp h with rfl | ⟨rest, hmem, hrest⟩
        · exact hself hbase' h0
        · exact hself hmem (startsWith_cons.mpr (Or.inr ⟨hself hbase' h0, hrest⟩))
  · obtain ⟨rule, hl, heq⟩ := hU.exists_loops hnew hleft
    rw [heq] at hright
    rcases Rule.mem_rights_loop.mp hright with ⟨loop, hloop, rfl⟩ | rfl
    · rcases startsWith_append.mp h with ⟨h, -⟩ | ⟨-, h⟩
      · exact (hU.startsWith_name_withOnce hl).mpr (Or.inr (Rule.exists_rest_of_startsWith hU.tidy_withOnce hloop h))
      · exact h
    · rw [← spelled_nil, startsWith_spelled hU.tidy_withOnce.epsilon_notMem] at h
      exact (hU.startsWith_name_withOnce hl).mpr (Or.inl h.eq_epsilon_of_nil)

/-- **Unrolled rules start with the same** as the rules before together with the loops gone through once. -/
theorem startsWith_withOnce_iff : StartsWith (withOnce used rules rules') s a ↔ StartsWith rules' s a := by
  refine ⟨.transfer (fun _ => hU.mem_lefts_withOnce.mpr) ?_, .transfer (fun _ => hU.mem_lefts_withOnce.mp) ?_⟩
  · intro rule hrule right hright a h
    rcases hU.exists_of_mem_withOnce hrule with hrule | ⟨source, name, hl, rfl⟩
    · exact hU.startsWith_of_right hrule hright h
    · exact hU.startsWith_of_once hl hright h
  · exact fun new hnew right hright a => hU.startsWith_of_right' hnew hright

/-- **Unrolling keeps what used names start with.** -/
theorem startsWith_iff (hs : ∀ n ∈ s, n ∈ used) : StartsWith rules' s a ↔ StartsWith rules s a := by
  rw [← hU.startsWith_withOnce_iff, withOnce]
  refine startsWith_append_rules hU.right_mem (fun once honce => ?_) hs
  obtain ⟨new, hnew, rfl⟩ := List.mem_map.mp honce
  exact of_decide_eq_true (List.mem_filter.mp hnew).2

/-- The fresh name vanishes or starts as a loop of its owner. -/
theorem startsWith_name_iff (hl : Loops used rules rules' rule name) (h0 : a ≠ epsilon) :
    StartsWith rules' [name] a ↔ LoopsWith rules rule.left a := by
  rw [← hU.startsWith_withOnce_iff, hU.startsWith_name_withOnce hl, or_iff_right h0]
  have hrest : ∀ {rest}, rule.left :: rest ∈ rule.rights →
      (StartsWith (withOnce used rules rules') rest a ↔ StartsWith rules rest a) := by
    intro rest hmem
    rw [hU.startsWith_withOnce_iff]
    exact hU.startsWith_iff fun n hn => hU.right_mem rule hl.mem _ hmem n (List.mem_cons_of_mem _ hn)
  refine ⟨?_, ?_⟩
  · rintro ⟨rest, hmem, h⟩
    exact ⟨rule, hl.mem, rfl, rest, hmem, h0, (hrest hmem).mp h⟩
  · rintro ⟨rule', hrule', hleft, rest, hmem, -, h⟩
    obtain rfl := hU.tidy.rule_ext hrule' hl.mem hleft
    exact ⟨rest, hmem, (hrest hmem).mpr h⟩

/-! ## Owners -/

/-- A name that is mentioned in the place of a rule is used or fresh there. -/
theorem mentions (hrule : rule ∈ rules) {entry : Rule} {fresh : List Rule} (h : Unrolled rule entry fresh)
    (hname : entry.Mentions name) : name ∈ used ∨ name ∈ fresh.map Rule.left := by
  obtain ⟨right, hright, hmem⟩ := hname
  cases h with
  | keep => exact Or.inl (hU.right_mem rule hrule right hright name hmem)
  | unroll loop =>
    obtain ⟨base, hbase, rfl⟩ := Rule.mem_rights_entry.mp hright
    refine (List.mem_append.mp hmem).imp (hU.base_mem_used hrule hbase name) fun hmem => ?_
    exact hmem

theorem owner_ext {owner' : String} (h : Owner used rules' owner name) (h' : Owner used rules' owner' name) :
    owner = owner' :=
  hU.replaced.owner_ext (fun _ hrule _ _ hlocal _ hname => hU.mentions hrule hlocal hname) h h'

/-- The entry ends in the fresh name. -/
theorem exists_entry_right (hl : Loops used rules rules' rule name) :
    ∃ base, base ++ [name] ∈ (rule.entry name).rights := by
  obtain ⟨base, hbase⟩ := List.exists_mem_of_ne_nil _ (hU.based rule hl.mem hl.loops)
  exact ⟨base, (hU.mem_rights_entry hl).mpr ⟨base, hbase, rfl⟩⟩

theorem owner_loop (hl : Loops used rules rules' rule name) : Owner used rules' rule.left name := by
  obtain ⟨base, hright⟩ := hU.exists_entry_right hl
  have hleft : (rule.entry name).left ∈ used := hU.left_mem rule hl.mem
  have howner : Owner used rules' (rule.entry name).left name :=
    .fresh hl.unused hl.entry hleft ⟨_, hright, List.mem_append_right _ List.mem_cons_self⟩
  exact howner

/-- What follows the owner follows the name. -/
theorem followedBy_of_owner (howner : Owner used rules' owner name) (h : FollowedBy rules' start owner a) :
    FollowedBy rules' start name a := by
  cases howner with
  | self => exact h
  | @fresh _ entry hfresh hentry hleft hmentions =>
    obtain ⟨right, hright, hname⟩ := hmentions
    rcases hU.keep_or_entry hentry hleft with ⟨hrule, -⟩ | ⟨rule, loop, hl, rfl⟩
    · exact absurd (hU.right_mem entry hrule right hright name hname) hfresh
    · obtain ⟨base, hbase, rfl⟩ := (hU.mem_rights_entry hl).mp hright
      rcases List.mem_append.mp hname with hname | hname
      · exact absurd (hU.base_mem_used hl.mem (Or.inl hbase) name hname) hfresh
      · obtain rfl := List.mem_singleton.mp hname
        exact .outer hentry hright (List.mem_map_of_mem (f := Rule.left) hl.loop) .nil h

/-! ## FOLLOW -/

/-- **An occurrence in an alternative** is the left side in front of a recursive one, or it is one after unrolling.
There a loop can come behind it, and it is in a rule with the same owner. -/
theorem exists_occurrence (hrule : rule ∈ rules) (hright : before ++ name :: rest ∈ rule.rights) :
    before = [] ∧ name = rule.left ∨ ∃ new ∈ rules', Owner used rules' rule.left new.left ∧ ∃ before' rest',
      before' ++ name :: rest' ∈ new.rights ∧ (∀ a, StartsWith rules rest a → StartsWith rules' rest' a) ∧
        ∀ a, StartsWith rules rest epsilon → LoopsWith rules rule.left a → StartsWith rules' rest' a := by
  have hrest : ∀ n ∈ rest, n ∈ used := fun n hn =>
    hU.right_mem rule hrule _ hright n (List.mem_append_right _ (List.mem_cons_of_mem _ hn))
  have hold : ∀ a, StartsWith rules rest a → StartsWith rules' rest a := fun a => (hU.startsWith_iff hrest).mpr
  have hself : Owner used rules' rule.left rule.left := .self (hU.left_mem rule hrule)
  rcases hU.keep_or_loops hrule with ⟨hloops, hkept⟩ | ⟨loop, hl⟩
  · refine Or.inr ⟨rule, hkept, hself, before, rest, hright, hold, ?_⟩
    rintro a - ⟨rule', hrule', hleft, tail, hmem, -⟩
    obtain rfl := hU.tidy.rule_ext hrule' hrule hleft
    have hloop : spelled tail ∈ rule'.loops := Rule.mem_loops.mpr ⟨tail, hmem, rfl⟩
    exact absurd (hloops ▸ hloop) List.not_mem_nil
  -- the loop comes behind everything
  have hmore : (∀ a, StartsWith rules rest a → StartsWith rules' (rest ++ [loop]) a) ∧
      ∀ a, StartsWith rules rest epsilon → LoopsWith rules rule.left a → StartsWith rules' (rest ++ [loop]) a := by
    refine ⟨fun a h => hl.startsWith_append (hold a h), fun a h0 hloops => ?_⟩
    exact startsWith_append.mpr (Or.inr ⟨hold _ h0, (hU.startsWith_name_iff hl hloops.ne_epsilon).mpr hloops⟩)
  by_cases hhead : (before ++ name :: rest).head? = some rule.left
  · cases before with
    | nil => exact Or.inl ⟨rfl, Option.some.inj hhead⟩
    | cons first before =>
      obtain rfl : first = rule.left := Option.some.inj hhead
      have hloop : before ++ name :: rest ∈ rule.loops := by
        refine Rule.mem_loops.mpr ⟨_, hright, ?_⟩
        exact spelled_of_ne_nil (List.append_ne_nil_of_right_ne_nil before (List.cons_ne_nil name rest))
      refine Or.inr ⟨rule.loop loop, hl.loop, hU.owner_loop hl, before, rest ++ [loop], ?_, hmore⟩
      exact Rule.mem_rights_loop.mpr (Or.inl ⟨_, hloop, by rw [List.append_assoc, List.cons_append]⟩)
  · refine Or.inr ⟨rule.entry loop, hl.entry, hself, before, rest ++ [loop], ?_, hmore⟩
    exact (hU.mem_rights_entry hl).mpr
      ⟨_, Rule.mem_bases.mpr ⟨hright, hhead⟩, by rw [List.append_assoc, List.cons_append]⟩

theorem followedBy_unrolled (h : FollowedBy rules start name a) :
    FollowedBy rules' start name a ∨ LoopsWith rules name a := by
  induction h with
  | start hstart => exact Or.inl (.start hstart)
  | next hrule hright hleft hne hrest =>
    rcases hU.exists_occurrence hrule hright with ⟨rfl, rfl⟩ | ⟨new, hnew, -, before', rest', hright', hmore, -⟩
    · exact Or.inr ⟨_, hrule, rfl, _, hright, hne, hrest⟩
    · exact Or.inl (.next hnew hright' (hU.replaced.left_mem hleft) hne (hmore _ hrest))
  | outer hrule hright hleft h0 _ ih =>
    rcases hU.exists_occurrence hrule hright with
      ⟨rfl, rfl⟩ | ⟨new, hnew, howner, before', rest', hright', hmore, hloop⟩
    · exact ih
    · rcases ih with ih | hloops
      · have hfollow := hU.followedBy_of_owner howner ih
        exact Or.inl (.outer hnew hright' (hU.replaced.left_mem hleft) (hmore _ h0) hfollow)
      · exact Or.inl (.next hnew hright' (hU.replaced.left_mem hleft) hloops.ne_epsilon (hloop _ h0 hloops))

/-- What stands before the fresh name and behind an occurrence: it starts with this, or it vanishes before a loop. -/
theorem startsWith_or_loopsWith (hl : Loops used rules rules' rule name) (hs : ∀ n ∈ s, n ∈ used)
    (h : StartsWith rules' (s ++ [name]) a) :
    StartsWith rules s a ∨ StartsWith rules s epsilon ∧ LoopsWith rules rule.left a := by
  rcases startsWith_append.mp h with ⟨h, -⟩ | ⟨h0, h⟩
  · exact Or.inl ((hU.startsWith_iff hs).mp h)
  · rw [hU.startsWith_iff hs] at h0
    by_cases hne : a = epsilon
    · exact Or.inl (hne ▸ h0)
    · exact Or.inr ⟨h0, (hU.startsWith_name_iff hl hne).mp h⟩

/-- A name in an alternative to which a fresh name was put. -/
theorem origin_append (hl : Loops used rules rules' rule a) (howner : Owner used rules' rule.left owner)
    (hs : ∀ n ∈ s, n ∈ used) (heq : s ++ [a] = before ++ name :: rest)
    (hback : ∀ before rest, s = before ++ name :: rest → ∃ before', before' ++ name :: rest ∈ rule.rights) :
    Origin used rules rules' owner name rest := by
  rcases append_eq_append_cons heq with ⟨mid, rfl, rfl⟩ | ⟨mid, hmid, -⟩
  · have hmid : ∀ n ∈ mid, n ∈ used := fun n hn => hs n (List.mem_append_right _ (List.mem_cons_of_mem _ hn))
    obtain ⟨before', hright⟩ := hback before mid rfl
    exact .before (hs name (List.mem_append_right _ List.mem_cons_self)) hl.mem howner hright
      fun a => hU.startsWith_or_loopsWith hl hmid
  · rcases List.append_eq_singleton_iff.mp hmid.symm with ⟨-, hsingle⟩ | ⟨-, hnil⟩
    · obtain ⟨rfl, rfl⟩ := List.cons.inj hsingle
      exact .last rfl (hU.owner_loop hl) howner
    · cases hnil

/-- **An occurrence after unrolling** is the fresh name at the end, or it was there before. -/
theorem origin (hnew : new ∈ rules') (hright : before ++ name :: rest ∈ new.rights)
    (hname : name ∈ rules'.map Rule.left) : Origin used rules rules' new.left name rest := by
  by_cases hleft : new.left ∈ used
  · rcases hU.keep_or_entry hnew hleft with ⟨hrule, -⟩ | ⟨rule, loop, hl, rfl⟩
    · have hused := hU.right_mem new hrule _ hright
      have hrest : ∀ n ∈ rest, n ∈ used := fun n hn => hused n (List.mem_append_right _ (List.mem_cons_of_mem _ hn))
      exact .before (hused name (List.mem_append_right _ List.mem_cons_self)) hrule (.self hleft) hright
        fun a h => Or.inl ((hU.startsWith_iff hrest).mp h)
    · obtain ⟨base, hbase, heq⟩ := (hU.mem_rights_entry hl).mp hright
      have hbaseUsed := hU.base_mem_used hl.mem (Or.inl hbase)
      refine hU.origin_append hl (.self hleft) hbaseUsed heq fun before' rest' hform => ?_
      exact ⟨before', hform ▸ (Rule.mem_bases.mp hbase).1⟩
  · obtain ⟨rule, hl, heq⟩ := hU.exists_loops hnew hleft
    -- `ε` is no left side, so the name was not added for an empty rest
    have hne := hU.tidy'.ne_epsilon hname
    rw [heq] at hright
    rcases Rule.mem_rights_loop.mp hright with ⟨loop, hloop, hform⟩ | hform
    · refine hU.origin_append hl (hU.owner_loop hl) (hU.loop_mem_used hl.mem hloop) hform fun before' rest' hsplit => ?_
      obtain ⟨tail, hmem, htail⟩ := Rule.mem_loops.mp hloop
      obtain rfl := eq_of_spelled_eq_append hne (htail.trans hsplit)
      exact ⟨rule.left :: before', hmem⟩
    · have hmem : name ∈ [epsilon] := hform ▸ List.mem_append_right _ List.mem_cons_self
      exact absurd (List.mem_singleton.mp hmem) hne

/-- What follows a name after unrolling followed its owner before. -/
theorem followedBy_owner (hstart : ∀ s ∈ start, s ∈ used) (h : FollowedBy rules' start name a)
    (howner : Owner used rules' owner name) : FollowedBy rules start owner a := by
  induction h generalizing owner with
  | start heq =>
    obtain rfl := hU.owner_ext howner (.self (hstart _ heq))
    exact .start heq
  | next hnew hright hleft hne hrest =>
    cases hU.origin hnew hright hleft with
    -- the fresh name at the end has nothing behind it
    | last hnil =>
      subst hnil
      exact absurd hrest.eq_epsilon_of_nil hne
    -- what stands behind a used name stood there before, or is behind a loop of the owner
    | before hused hrule _ hright' hback =>
      obtain rfl := hU.owner_ext howner (.self hused)
      have hold := (hU.replaced.left_mem_or_fresh hleft).resolve_right (not_not_intro hused)
      rcases hback _ hrest with hrest' | ⟨h0, hloops⟩
      · exact .next hrule hright' hold hne hrest'
      · exact .outer hrule hright' hold h0 (hloops.followedBy)
  | outer hnew hright hleft h0 _ ih =>
    cases hU.origin hnew hright hleft with
    -- the fresh name at the end stands for its owner
    | last _ howner' hnewOwner =>
      obtain rfl := hU.owner_ext howner howner'
      exact ih hnewOwner
    | before hused hrule howner' hright' hback =>
      obtain rfl := hU.owner_ext howner (.self hused)
      have hold := (hU.replaced.left_mem_or_fresh hleft).resolve_right (not_not_intro hused)
      rcases hback _ h0 with h0 | ⟨h0, -⟩
      · exact .outer hrule hright' hold h0 (ih howner')
      · exact .outer hrule hright' hold h0 (ih howner')

/-- **A used name is followed before by what follows it after unrolling and by the starts of its loops.** -/
theorem followedBy_iff (hstart : ∀ s ∈ start, s ∈ used) (hname : name ∈ used) :
    FollowedBy rules start name a ↔ FollowedBy rules' start name a ∨ LoopsWith rules name a :=
  ⟨hU.followedBy_unrolled, fun h =>
    h.elim (fun h => hU.followedBy_owner hstart h (.self hname)) LoopsWith.followedBy⟩

end BasedUnrolling

/-! ## In grammars -/

namespace Grammar

variable {g h : Grammar} {nt nt' : NonTerminal}

/-- Every left-recursive non-terminal has a production that starts otherwise. -/
def Based (g : Grammar) : Prop :=
  ∀ nt ∈ g.nonTerminals, (∃ production ∈ nt.productions, production.head? = some nt.index) →
    ∃ production ∈ nt.productions, production.head? ≠ some nt.index

instance (g : Grammar) : Decidable g.Based :=
  inferInstanceAs (Decidable (∀ nt ∈ g.nonTerminals, (∃ production ∈ nt.productions, production.head? = some nt.index) →
    ∃ production ∈ nt.productions, production.head? ≠ some nt.index))

/-- The names of what can begin behind the non-terminal in its productions that start with it. -/
def namesOfLoops (g : Grammar) (nt : NonTerminal) : Set String :=
  {name | ∃ rest, nt.index :: rest ∈ nt.productions ∧ name ∈ g.namesIn ((g.first.ofSequence rest).erase epsilonIndex)}

namespace WellFormed

variable (hg : g.WellFormed)
include hg

theorem basedUnrolling (hbased : g.Based) :
    BasedUnrolling g.names g.namedRules (unrollRules g.names g.namedRules) where
  toUnrolling := hg.unrolling
  left_mem := fun _ hrule => (hg.names_of_mem hrule).1
  based := by
    intro rule hrule hloops hbases
    obtain ⟨nt, hnt, hname, hrights⟩ := mem_namedRules.mp hrule
    -- a base is the names of a production that starts otherwise, a loop comes from one that starts with itself
    have hhead : ∀ {production}, production ∈ nt.productions →
        ((production.map g.label).head? = some rule.left ↔ production.head? = some nt.index) :=
      fun hp => hname ▸ hg.head?_map_label_iff hnt hp
    have hmem : ∀ {production}, production ∈ nt.productions → production.map g.label ∈ rule.rights :=
      fun hp => hrights ▸ List.mem_map_of_mem hp
    obtain ⟨loop, hloop⟩ := List.exists_mem_of_ne_nil _ hloops
    obtain ⟨rest, hright, -⟩ := Rule.mem_loops.mp hloop
    rw [← hrights] at hright
    obtain ⟨recursive, hp, hform⟩ := List.mem_map.mp hright
    obtain ⟨other, hp', hother⟩ := hbased nt hnt ⟨recursive, hp, (hhead hp).mp (by rw [hform]; rfl)⟩
    have hbase : other.map g.label ∈ rule.bases := Rule.mem_bases.mpr ⟨hmem hp', mt (hhead hp').mp hother⟩
    exact absurd (hbases ▸ hbase) List.not_mem_nil

/-- The loops of a non-terminal start with the names in FIRST of what stands behind it. -/
theorem loopsWith_iff (hnt : nt ∈ g.nonTerminals) (a : String) :
    LoopsWith g.namedRules nt.name a ↔ a ∈ g.namesOfLoops nt := by
  have hfirst : ∀ {rest}, nt.index :: rest ∈ nt.productions →
      (a ∈ g.namesIn ((g.first.ofSequence rest).erase epsilonIndex) ↔
        StartsWith g.namedRules (rest.map g.label) a ∧ a ≠ PredictiveGrammar.epsilon) := by
    intro rest hp
    rw [hg.mem_namesIn_erase, hg.mem_namesIn_first fun i hi => hg.production_lt hnt hp i (List.mem_cons_of_mem _ hi)]
  refine ⟨?_, ?_⟩
  -- an alternative that starts with its left side is a production that does
  · rintro ⟨rule, hrule, hleft, rest, hmem, hne, hrest⟩
    obtain ⟨nt', hnt', hname, hrights⟩ := mem_namedRules.mp hrule
    obtain rfl := hg.nonTerminal_name_ext hnt' hnt (hname.trans hleft)
    rw [← hrights] at hmem
    obtain ⟨production, hp, hform⟩ := List.mem_map.mp hmem
    have hhead : production.head? = some nt'.index := (hg.head?_map_label_iff hnt hp).mp (by rw [hform]; rfl)
    obtain ⟨tail, rfl⟩ := List.head?_eq_some_iff.mp hhead
    obtain rfl : tail.map g.label = rest := (List.cons.inj hform).2
    exact ⟨tail, hp, (hfirst hp).mpr ⟨hrest, hne⟩⟩
  -- and the other way round
  · rintro ⟨rest, hp, hmem⟩
    obtain ⟨hrest, hne⟩ := (hfirst hp).mp hmem
    obtain ⟨rule, hrule, hleft, hright⟩ := hg.mem_rights_of_mem_productions hnt hp
    rw [hg.label_index hnt] at hleft
    rw [List.map_cons, hg.label_index hnt] at hright
    exact ⟨rule, hrule, hleft, rest.map g.label, hright, hne, hrest⟩

end WellFormed

/-! ## In built grammars -/

/-- **Eliminating left recursion changes FOLLOW sets of left-recursive non-terminals only**, if each of them has a
production that starts otherwise. Every non-terminal has a namesake in the result that is nullable if it is and has the
same FIRST set by name. Its FOLLOW set holds, apart from what the namesake's holds, what can begin behind it in its
productions that start with it. -/
theorem Built.withoutLeftRecursion_analyses (hg : g.Built) (hbased : g.Based) :
    ∃ h W V, g.withoutLeftRecursion = .ok h ∧ g.follow g.first = .ok W ∧ h.follow h.first = .ok V ∧
      ∀ nt ∈ g.nonTerminals, ∃ nt' ∈ h.nonTerminals, nt'.name = nt.name ∧
        h.first.nullable nt'.index = g.first.nullable nt.index ∧
        g.SameNames h (g.first.get? nt.index) (h.first.get? nt'.index) ∧
        ((∀ production ∈ nt.productions, production.head? ≠ some nt.index) →
          g.SameNames h (W.get? nt.index) (V.get? nt'.index)) ∧
        ∃ members ∈ W.get? nt.index, ∃ members' ∈ V.get? nt'.index,
          g.namesIn members = h.namesIn members' ∪ g.namesOfLoops nt := by
  have hwf := hg.wellFormed
  obtain ⟨h, hok, hh, hstart, hrules⟩ := hwf.withoutLeftRecursion
  obtain ⟨W, hfollow, hW⟩ := hwf.follow_eq
  obtain ⟨V, hfollow', hV⟩ := hh.follow_eq
  have hlabel := hwf.map_label_start hh hstart
  have hU := hwf.basedUnrolling hbased
  refine ⟨h, W, V, hok, hfollow, hfollow', fun nt hnt => ?_⟩
  have hleft := hU.replaced.left_mem (name_mem_lefts hnt)
  rw [← hrules] at hleft
  obtain ⟨nt', hnt', hname⟩ := exists_named hleft
  have hused := hwf.name_mem_names hnt
  have hfirst : ∀ a, StartsWith h.namedRules [nt'.name] a ↔ StartsWith g.namedRules [nt.name] a := by
    intro a
    rw [hrules, hname]
    exact hU.startsWith_iff (List.forall_mem_singleton.mpr hused)
  have hfollows : ∀ a, FollowedBy g.namedRules (g.start.map g.label) nt.name a ↔
      FollowedBy h.namedRules (h.start.map h.label) nt'.name a ∨ a ∈ g.namesOfLoops nt := by
    intro a
    rw [hrules, hlabel, hname, ← hwf.loopsWith_iff hnt]
    exact hU.followedBy_iff hwf.start_mem_names hused
  refine ⟨nt', hnt', hname, hwf.nullable_eq hh hnt hnt' hfirst, hwf.sameNames_first hh hnt hnt' hfirst,
    fun hplain => hwf.sameNames_follow hh hnt hnt' hW hV fun a => ?_,
    _, hwf.get?_follow hnt hW, _, hh.get?_follow hnt' hV, Set.ext fun a => ?_⟩
  -- without loops nothing is lost
  · rw [hfollows, or_iff_left]
    rintro ⟨rest, hp, -⟩
    exact hplain _ hp rfl
  -- with loops, what was lost stands behind them
  · rw [Set.mem_union, hwf.mem_namesIn_follow_index hnt hW, hh.mem_namesIn_follow_index hnt' hV, hfollows]

/-- Sums of products, where `+` can stand behind a `T` because `E` can stand in front of it. -/
def sumsOfProducts : Grammar := .ofRules [⟨"E", [["E", "+", "T"], ["T"]]⟩, ⟨"T", [["T", "*", "a"], ["a"]]⟩]

/-- After the elimination no alternative has an `E`, so that none stands in front of `+`, and yet `+` can stand behind a
`T`. -/
theorem Built.withoutLeftRecursion_analyses_sumsOfProducts :
    sumsOfProducts.Built ∧ sumsOfProducts.Based ∧ ∃ h V nt' set', sumsOfProducts.withoutLeftRecursion = .ok h ∧
      (∀ rule ∈ h.namedRules, ∀ right ∈ rule.rights, "E" ∉ right) ∧
      h.follow h.first = .ok V ∧ nt' ∈ h.nonTerminals ∧ nt'.name = "T" ∧ V.get? nt'.index = some set' ∧
        "+" ∈ h.namesIn set' := by
  have hbuilt : sumsOfProducts.Built := .ofRules _
  have hbased : sumsOfProducts.Based := by decide
  obtain ⟨h, W, V, hok, hW, hV, hall⟩ := Built.withoutLeftRecursion_analyses hbuilt hbased
  obtain ⟨nt', hnt', hname, -, -, -, members, hmembers, set', hset', hnames⟩ :=
    hall ⟨3, "T", [[3, 5, 6], [6]]⟩ (by decide)
  have hwithout : ∀ rule ∈ h.namedRules, ∀ right ∈ rule.rights, "E" ∉ right := by
    have hknown : sumsOfProducts.withoutLeftRecursion = .ok (.ofRules [⟨"E", [["T", "E'"]]⟩,
        ⟨"E'", [["+", "T", "E'"], ["ε"]]⟩, ⟨"T", [["a", "T'"]]⟩, ⟨"T'", [["*", "a", "T'"], ["ε"]]⟩]) := by decide
    obtain rfl := Except.ok.inj (hok.symm.trans hknown)
    decide
  refine ⟨hbuilt, hbased, h, V, nt', set', hok, hwithout, hV, hnt', hname, hset', ?_⟩
  obtain rfl : members = .ofList [1, 4, 5] := by
    have hknown : ((sumsOfProducts.follow sumsOfProducts.first).toOption.bind (·.get? 3)) =
        some (.ofList [1, 4, 5]) := by decide
    rw [hW] at hknown
    exact Option.some.inj (hmembers.symm.trans hknown)
  have hplus : "+" ∈ sumsOfProducts.namesIn (.ofList [1, 4, 5]) := ⟨4, by decide, by decide⟩
  rw [hnames] at hplus
  refine hplus.resolve_right ?_
  rintro ⟨rest, hrest, a, ha, hname⟩
  obtain rfl : rest = [5, 6] := by simpa using hrest
  obtain rfl : a = 5 := by
    have hknown : (sumsOfProducts.first.ofSequence [5, 6]).erase epsilonIndex = {5} := by decide
    rw [hknown] at ha
    exact SymbolSet.mem_singleton.mp ha
  exact absurd hname (by decide)

end Grammar

end PredictiveGrammar
