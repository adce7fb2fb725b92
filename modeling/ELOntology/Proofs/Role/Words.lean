import ELOntology.Proofs.Index.Revision
import ELOntology.Proofs.Index.RoleNames
import Mathlib.Logic.Relator

/-!
# Words of roles

A role axiom includes the composition of some roles in a role.  `Included` is the least relation between words and roles
that follows from such inclusions.  An index has only inclusions of one role and compositions of two, with auxiliary roles
for the later roles of a longer chain, named by joining their names.

Key fact: `Index.Accounts.included_told_iff` (as long as every name stands for one composition only, what an index is told
includes the same words of the roles of its axioms in the same roles as the axioms do).
-/

namespace ELOntology

/-- Words of roles that are included in a role, by inclusions told of compositions. -/
inductive Included (told : List String → String → Prop) : List String → String → Prop
  | self (role : String) : Included told [role] role
  | told {roles : List String} {sup : String} {words : List (List String)} (h : told roles sup)
      (hwords : List.Forall₂ (Included told) words roles) : Included told words.flatten sup

/-- The word splits into words that are included in the roles, one by one. -/
def IncludedAll (told : List String → String → Prop) (word roles : List String) : Prop :=
  ∃ words, words.flatten = word ∧ List.Forall₂ (Included told) words roles

/-- The axiom includes the composition of the listed roles in the role. -/
inductive Axiom.Includes : Axiom → List String → String → Prop
  | role {sub sup : String} : Includes (.subRoleOf (.role sub) sup) [sub] sup
  | chain {roles : List String} {sup : String} : Includes (.subRoleOf (.chain roles) sup) roles sup
  | equivalent {roles : List String} {sub sup : String} (hsub : sub ∈ roles) (hsup : sup ∈ roles) :
      Includes (.equivalentRoles roles) [sub] sup
  | transitive {role : String} : Includes (.transitiveRole role) [role, role] role

/-- What the entries tell of compositions. -/
inductive Told (said : List TermEntry) : List String → String → Prop
  | inclusion {sub sup : String} (h : .roleInclusion sub sup ∈ said) : Told said [sub] sup
  | composition {left right sup : String} (h : .composition left right sup ∈ said) : Told said [left, right] sup

namespace Index

/-- Some asserted axiom includes the composition in the role. -/
def Includes (ix : Index) (roles : List String) (sup : String) : Prop :=
  ∃ a, ix.containsAxiom a = true ∧ a.Includes roles sup

/-- The name is that of a role which stands for the composition: a role of an axiom for itself, and an auxiliary role for
the later roles of a chain. -/
inductive Stands (ix : Index) : String → List String → Prop
  | role {name : String} (h : ix.NamesRole name) : Stands ix name [name]
  | auxiliary {earlier roles : List String} {sup : String}
      (h : ix.containsAxiom (.subRoleOf (.chain (earlier ++ roles)) sup) = true) (hearlier : earlier ≠ [])
      (hroles : 2 ≤ roles.length) : Stands ix (RoleExpression.suffixName roles) roles

/-- No auxiliary role has the name of a role of an axiom, or that of an auxiliary role for another composition. -/
def Unambiguous (ix : Index) : Prop := Relator.RightUnique ix.Stands

end Index

/-! ### Inclusions -/

section

variable {told told' : List String → String → Prop} {word word' roles roles' : List String} {role sup : String}

/-- Nothing else is included than what is included by every relation that follows the inclusions. -/
theorem Included.least {R : List String → String → Prop} (hself : ∀ role, R [role] role)
    (htold : ∀ {roles sup words}, told roles sup → List.Forall₂ R words roles → R words.flatten sup)
    (h : Included told word sup) : R word sup :=
  @Included.rec told (fun word sup _ => R word sup) (fun words roles _ => List.Forall₂ R words roles) hself
    (fun h _ ih => htold h ih) .nil (fun _ _ hword hwords => .cons hword hwords) word sup h

namespace IncludedAll

theorem nil : IncludedAll told [] [] := ⟨[], rfl, .nil⟩

theorem cons (hword : Included told word role) (hwords : IncludedAll told word' roles) :
    IncludedAll told (word ++ word') (role :: roles) := by
  obtain ⟨words, rfl, hwords⟩ := hwords
  exact ⟨word :: words, List.flatten_cons, .cons hword hwords⟩

theorem exists_of_cons (h : IncludedAll told word (role :: roles)) :
    ∃ first rest, word = first ++ rest ∧ Included told first role ∧ IncludedAll told rest roles := by
  obtain ⟨words, rfl, hwords⟩ := h
  cases hwords with
  | @cons first _ words _ hfirst hrest => exact ⟨first, words.flatten, List.flatten_cons, hfirst, words, rfl, hrest⟩

theorem single_iff : IncludedAll told word [role] ↔ Included told word role := by
  constructor
  · intro h
    obtain ⟨first, rest, rfl, hfirst, words, rfl, hrest⟩ := h.exists_of_cons
    cases hrest
    rwa [List.flatten_nil, List.append_nil]
  · intro h
    have hcons := cons h nil
    rwa [List.append_nil] at hcons

theorem self (roles : List String) : IncludedAll told roles roles := by
  induction roles with
  | nil => exact nil
  | cons role roles ih => exact cons (.self role) ih

theorem append (h : IncludedAll told word roles) (h' : IncludedAll told word' roles') :
    IncludedAll told (word ++ word') (roles ++ roles') := by
  obtain ⟨words, rfl, hwords⟩ := h
  obtain ⟨words', rfl, hwords'⟩ := h'
  exact ⟨words ++ words', List.flatten_append, List.rel_append hwords hwords'⟩

theorem included (h : IncludedAll told word roles) (htold : told roles sup) : Included told word sup := by
  obtain ⟨words, rfl, hwords⟩ := h
  exact .told htold hwords

end IncludedAll

/-- Inclusions that follow from others include no more than these. -/
theorem Included.of_forall (hfollows : ∀ {roles sup word}, told roles sup → IncludedAll told' word roles →
    Included told' word sup) (h : Included told word sup) : Included told' word sup :=
  h.least .self fun htold hwords => hfollows htold ⟨_, rfl, hwords⟩

end

/-! ### What the chains of an index say -/

namespace RoleExpression

theorem mem_suffixEntries {entry : TermEntry} {names : List String} : entry ∈ suffixEntries names ↔
    ∃ earlier name rest, names = earlier ++ name :: rest ∧ rest ≠ [] ∧
      entry = .composition name (suffixName rest) (suffixName (name :: rest)) := by
  induction names with
  | nil => simp [suffixEntries]
  | cons first names ih =>
    cases names with
    | nil =>
      refine ⟨fun h => absurd h List.not_mem_nil, ?_⟩
      rintro ⟨earlier, name, rest, hsplit, hrest, -⟩
      rcases List.cons_eq_append_iff.1 hsplit with ⟨rfl, e⟩ | ⟨_, rfl, e⟩ <;> simp_all
    | cons second names =>
      rw [suffixEntries, List.mem_append, ih, List.mem_singleton]
      · constructor
        · rintro (⟨earlier, name, rest, hsplit, hrest, rfl⟩ | rfl)
          · exact ⟨first :: earlier, name, rest, by rw [hsplit]; rfl, hrest, rfl⟩
          · exact ⟨[], first, second :: names, rfl, List.cons_ne_nil _ _, rfl⟩
        · rintro ⟨earlier, name, rest, hsplit, hrest, rfl⟩
          rcases List.cons_eq_append_iff.1 hsplit with ⟨rfl, e⟩ | ⟨earlier, rfl, e⟩
          · obtain ⟨rfl, rfl⟩ := List.cons.inj e
            exact .inr rfl
          · exact .inl ⟨earlier, name, rest, e, hrest, rfl⟩
      · simp

theorem mem_equivalenceEntries {entry : TermEntry} {first : String} {names : List String} :
    entry ∈ equivalenceEntries first names ↔
      ∃ other ∈ names, entry = .roleInclusion first other ∨ entry = .roleInclusion other first := by
  induction names with
  | nil => simp [equivalenceEntries]
  | cons other names ih => simp [equivalenceEntries, ih, or_assoc]

/-- A word is included in the auxiliary role of a composition if it splits into words that are included in its roles. -/
theorem included_suffixName {told : List String → String → Prop} {names word : List String} (hne : names ≠ [])
    (htold : ∀ {left right sup}, .composition left right sup ∈ suffixEntries names → told [left, right] sup)
    (h : IncludedAll told word names) : Included told word (suffixName names) := by
  induction names generalizing word with
  | nil => exact absurd rfl hne
  | cons name names ih =>
    cases names with
    | nil => exact IncludedAll.single_iff.1 h
    | cons next names =>
      obtain ⟨first, rest, rfl, hfirst, hrest⟩ := h.exists_of_cons
      have hentry : .composition name (suffixName (next :: names)) (suffixName (name :: next :: names)) ∈
          suffixEntries (name :: next :: names) :=
        mem_suffixEntries.2 ⟨[], name, next :: names, rfl, List.cons_ne_nil _ _, rfl⟩
      have hlater : Included told rest (suffixName (next :: names)) := by
        refine ih (List.cons_ne_nil _ _) (fun hmem => htold ?_) hrest
        obtain ⟨earlier, name', rest', hsplit, hrest', e⟩ := mem_suffixEntries.1 hmem
        exact mem_suffixEntries.2 ⟨name :: earlier, name', rest', by rw [hsplit]; rfl, hrest', e⟩
      exact IncludedAll.included (.cons hfirst (IncludedAll.single_iff.2 hlater)) (htold hentry)

/-- The name of an auxiliary role is included like the later roles that it stands for. -/
theorem included_suffixName_append {told : List String → String → Prop} (earlier : List String) {later : List String}
    (hlater : later ≠ [])
    (htold : ∀ {left right sup}, .composition left right sup ∈ suffixEntries (earlier ++ later) → told [left, right] sup) :
    Included told (earlier ++ [suffixName later]) (suffixName (earlier ++ later)) := by
  induction earlier with
  | nil => exact .self _
  | cons name earlier ih =>
    have hne : earlier ++ later ≠ [] := List.append_ne_nil_of_right_ne_nil earlier hlater
    have hrest := ih fun hmem => htold (by
      obtain ⟨earlier', name', rest, hsplit, hrest, e⟩ := mem_suffixEntries.1 hmem
      exact mem_suffixEntries.2 ⟨name :: earlier', name', rest, by rw [List.cons_append, hsplit]; rfl, hrest, e⟩)
    have hboth : IncludedAll told ([name] ++ (earlier ++ [suffixName later])) [name, suffixName (earlier ++ later)] :=
      .cons (.self name) (IncludedAll.single_iff.2 hrest)
    exact hboth.included (htold (mem_suffixEntries.2 ⟨[], name, earlier ++ later, rfl, hne, rfl⟩))

end RoleExpression

namespace Index

variable {ix : Index}

namespace Accounts

/-- What the index is told includes all that the axioms include. -/
theorem included_of_includes (hix : ix.Accounts) {roles word : List String} {sup : String} (h : ix.Includes roles sup)
    (hword : IncludedAll (Told ix.said) word roles) : Included (Told ix.said) word sup := by
  obtain ⟨a, ha, hincludes⟩ := h
  obtain ⟨said, hsaid⟩ := hix.exists_entries_of_contains ha
  have hmem {entry : TermEntry} (hentry : entry ∈ said) : entry ∈ ix.said := hix.mem_said_iff.2 ⟨a, ha, said, hsaid, hentry⟩
  cases hincludes with
  | role =>
    cases hsaid
    exact hword.included (.inclusion (hmem (List.mem_singleton_self _)))
  | transitive =>
    cases hsaid
    exact hword.included (.composition (hmem (List.mem_singleton_self _)))
  | @equivalent roles sub sup hsub hsup =>
    cases roles with
    | nil => cases hsub
    | cons first rest =>
      cases hsaid
      have hfirst : Included (Told ix.said) word first := by
        rcases List.mem_cons.1 hsub with rfl | hsub
        · exact IncludedAll.single_iff.1 hword
        · exact hword.included (.inclusion (hmem (RoleExpression.mem_equivalenceEntries.2 ⟨sub, hsub, .inr rfl⟩)))
      rcases List.mem_cons.1 hsup with rfl | hsup
      · exact hfirst
      · exact (IncludedAll.single_iff.2 hfirst).included
          (.inclusion (hmem (RoleExpression.mem_equivalenceEntries.2 ⟨sup, hsup, .inl rfl⟩)))
  | chain =>
    match roles with
    | [] => cases hsaid
    | [only] =>
      cases hsaid
      exact hword.included (.inclusion (hmem (List.mem_singleton_self _)))
    | first :: second :: rest =>
      cases hsaid
      obtain ⟨word, word', rfl, hfirst, hrest⟩ := hword.exists_of_cons
      have hlater := RoleExpression.included_suffixName (List.cons_ne_nil _ _)
        (fun hentry => .composition (hmem (List.mem_append_left _ hentry))) hrest
      exact IncludedAll.included (.cons hfirst (IncludedAll.single_iff.2 hlater))
        (.composition (hmem (List.mem_append_right _ (List.mem_singleton_self _))))

/-- An index is told the same of a role that has the name of an auxiliary role. -/
theorem included_auxiliary (hix : ix.Accounts) {first sup : String} {earlier later : List String}
    (h : ix.containsAxiom (.subRoleOf (.chain (first :: (earlier ++ later))) sup) = true) (hlater : later ≠ []) :
    Included (Told ix.said) (first :: (earlier ++ [RoleExpression.suffixName later])) sup := by
  obtain ⟨second, rest, hrest⟩ := List.exists_cons_of_ne_nil (List.append_ne_nil_of_right_ne_nil earlier hlater)
  have hmem {entry : TermEntry} (hentry : entry ∈ RoleExpression.suffixEntries (earlier ++ later) ++
      [.composition first (RoleExpression.suffixName (earlier ++ later)) sup]) : entry ∈ ix.said := by
    refine hix.mem_said_iff.2 ⟨_, h, _, ?_, hentry⟩
    rw [hrest]
    rfl
  have hsuffix : Included (Told ix.said) (earlier ++ [RoleExpression.suffixName later])
      (RoleExpression.suffixName (earlier ++ later)) :=
    RoleExpression.included_suffixName_append earlier hlater fun hentry => .composition (hmem (List.mem_append_left _ hentry))
  exact IncludedAll.included (.cons (.self first) (IncludedAll.single_iff.2 hsuffix))
    (.composition (hmem (List.mem_append_right _ (List.mem_singleton_self _))))

end Accounts

/-! ### What roles stand for -/

theorem stands_of_later {earlier later : List String} {sup : String}
    (h : ix.containsAxiom (.subRoleOf (.chain (earlier ++ later)) sup) = true) (hearlier : earlier ≠ [])
    (hlater : later ≠ []) : ix.Stands (RoleExpression.suffixName later) later := by
  match later with
  | [] => exact absurd rfl hlater
  | [last] => exact .role ⟨_, h, List.mem_cons_of_mem _ (List.mem_append_right _ (List.mem_singleton_self _))⟩
  | first :: second :: rest => exact .auxiliary h hearlier (Nat.le_add_left 2 rest.length)

/-- What an axiom says of its own roles. -/
private theorem exists_stands_of_includes {a : Axiom} (ha : ix.containsAxiom a = true) {names : List String} {name : String}
    (hnames : ∀ role ∈ names, role ∈ a.roleNames) (hname : name ∈ a.roleNames) (h : a.Includes names name) :
    ∃ parts, List.Forall₂ ix.Stands names parts ∧
      (ix.NamesRole name ∧ ix.Includes parts.flatten name ∨ ix.Stands name parts.flatten) := by
  have hparts : (names.map ([·])).flatten = names := by rw [← List.flatMap_def, List.flatMap_singleton']
  refine ⟨names.map ([·]), ?_, .inl ⟨⟨a, ha, hname⟩, a, ha, by rwa [hparts]⟩⟩
  rw [List.forall₂_map_right_iff, List.forall₂_same]
  exact fun role hrole => .role ⟨a, ha, hnames role hrole⟩

/-- What is said of a chain of several roles. -/
private theorem exists_stands_of_chain {first second sup : String} {rest : List String}
    (ha : ix.containsAxiom (.subRoleOf (.chain (first :: second :: rest)) sup) = true) {left right name : String}
    (h : .composition left right name ∈ RoleExpression.suffixEntries (second :: rest) ++
      [.composition first (RoleExpression.suffixName (second :: rest)) sup]) :
    ∃ parts, List.Forall₂ ix.Stands [left, right] parts ∧
      (ix.NamesRole name ∧ ix.Includes parts.flatten name ∨ ix.Stands name parts.flatten) := by
  have hrole {role : String} (hmem : role ∈ first :: second :: rest) : ix.Stands role [role] :=
    .role ⟨_, ha, List.mem_cons_of_mem _ hmem⟩
  rcases List.mem_append.1 h with hsuffix | hlast
  · obtain ⟨earlier, role, later, hsplit, hlater, e⟩ := RoleExpression.mem_suffixEntries.1 hsuffix
    obtain ⟨rfl, rfl, rfl⟩ := Entry.composition.inj e
    rw [hsplit] at ha hrole
    have hright : ix.Stands (RoleExpression.suffixName later) later := by
      rw [List.append_cons, ← List.cons_append] at ha
      exact stands_of_later ha (List.cons_ne_nil first (earlier ++ [left])) hlater
    have hboth : ix.Stands (RoleExpression.suffixName (left :: later)) (left :: later) :=
      stands_of_later (List.cons_append ▸ ha) (List.cons_ne_nil first earlier) (List.cons_ne_nil _ _)
    refine ⟨[[left], later], .cons (hrole (by simp)) (.cons hright .nil), .inr ?_⟩
    simpa using hboth
  · cases List.mem_singleton.1 hlast
    refine ⟨[[first], second :: rest], .cons (hrole (List.mem_cons_self ..)) (.cons ?_ .nil), .inl ⟨⟨_, ha, ?_⟩, _, ha, ?_⟩⟩
    · exact stands_of_later ha (List.cons_ne_nil first []) (List.cons_ne_nil _ _)
    · exact List.mem_cons_self ..
    · simpa using Axiom.Includes.chain

/-- The roles that an index is told an inclusion of stand for compositions.  The inclusion is that of an axiom, or it says
what an auxiliary role stands for. -/
theorem Accounts.exists_stands (hix : ix.Accounts) {names : List String} {name : String} (h : Told ix.said names name) :
    ∃ parts, List.Forall₂ ix.Stands names parts ∧
      (ix.NamesRole name ∧ ix.Includes parts.flatten name ∨ ix.Stands name parts.flatten) := by
  obtain ⟨a, ha, said, hsaid, h⟩ : ∃ a, ix.containsAxiom a = true ∧ ∃ said, a.entries? = some said ∧ Told said names name := by
    cases h with
    | inclusion h =>
      obtain ⟨a, ha, said, hsaid, hmem⟩ := hix.mem_said_iff.1 h
      exact ⟨a, ha, said, hsaid, .inclusion hmem⟩
    | composition h =>
      obtain ⟨a, ha, said, hsaid, hmem⟩ := hix.mem_said_iff.1 h
      exact ⟨a, ha, said, hsaid, .composition hmem⟩
  cases a with
  | subRoleOf sub sup =>
    cases sub with
    | role sub =>
      cases hsaid
      rcases h with h | h <;> cases List.mem_singleton.1 h
      exact exists_stands_of_includes ha (by simp [Axiom.roleNames, RoleExpression.roleNames])
        (List.mem_cons_self ..) .role
    | chain roles =>
      match roles with
      | [] => cases hsaid
      | [only] =>
        cases hsaid
        rcases h with h | h <;> cases List.mem_singleton.1 h
        exact exists_stands_of_includes ha (by simp [Axiom.roleNames, RoleExpression.roleNames])
          (List.mem_cons_self ..) .chain
      | first :: second :: rest =>
        cases hsaid
        cases h with
        | inclusion h =>
          rcases List.mem_append.1 h with hsuffix | hlast
          · obtain ⟨_, _, _, -, -, e⟩ := RoleExpression.mem_suffixEntries.1 hsuffix
            cases e
          · cases List.mem_singleton.1 hlast
        | composition h => exact exists_stands_of_chain ha h
  | equivalentRoles roles =>
    cases roles with
    | nil =>
      cases hsaid
      rcases h with h | h <;> cases h
    | cons first rest =>
      cases hsaid
      rcases h with h | h <;> obtain ⟨other, hother, e | e⟩ := RoleExpression.mem_equivalenceEntries.1 h <;> cases e
      · exact exists_stands_of_includes ha (by simp [Axiom.roleNames]) (List.mem_cons_of_mem _ hother)
          (.equivalent (List.mem_cons_self ..) (List.mem_cons_of_mem _ hother))
      · exact exists_stands_of_includes ha (by simp [Axiom.roleNames, hother]) (List.mem_cons_self ..)
          (.equivalent (List.mem_cons_of_mem _ hother) (List.mem_cons_self ..))
  | transitiveRole role =>
    cases hsaid
    rcases h with h | h <;> cases List.mem_singleton.1 h
    exact exists_stands_of_includes ha (by simp [Axiom.roleNames]) (List.mem_singleton_self _) .transitive
  | _ =>
    rcases h with h | h <;> exact absurd (Axiom.ofRoles_of_mem_entries rfl hsaid _ h) (by simp [Entry.ofRoles])

/-! ### Auxiliary roles add nothing -/

/-- The axioms include the word, if it is one of their roles, in all that the role of the given name stands for. -/
private def Sound (ix : Index) (word : List String) (name : String) : Prop :=
  (∀ role ∈ word, ix.NamesRole role) → ∀ roles, ix.Stands name roles → IncludedAll ix.Includes word roles

private theorem Sound.flatten {words parts : List (List String)} {names : List String}
    (hwords : List.Forall₂ ix.Sound words names) (hparts : List.Forall₂ ix.Stands names parts)
    (hnamed : ∀ role ∈ words.flatten, ix.NamesRole role) : IncludedAll ix.Includes words.flatten parts.flatten := by
  induction hwords generalizing parts with
  | nil =>
    cases hparts
    exact .nil
  | @cons word name words names hword _ ih =>
    rw [List.flatten_cons, List.forall_mem_append] at hnamed
    cases hparts with
    | cons hpart hparts => exact (hword hnamed.1 _ hpart).append (ih hparts hnamed.2)

/-- Induction on the least relation: where the index is told of an auxiliary role, that role stands for what is composed. -/
private theorem Accounts.told_sound (hix : ix.Accounts) (hnames : ix.Unambiguous) {word : List String} {name : String}
    (h : Included (Told ix.said) word name) : ix.Sound word name := by
  refine h.least (fun role hnamed roles hroles => ?_) fun htold hwords hnamed roles hroles => ?_
  · rw [hnames hroles (.role (hnamed role (List.mem_singleton_self _)))]
    exact .self [role]
  · obtain ⟨parts, hparts, hsup⟩ := hix.exists_stands htold
    have hall := Sound.flatten hwords hparts hnamed
    rcases hsup with ⟨hsup, hincludes⟩ | hstands
    · rw [hnames hroles (.role hsup)]
      exact IncludedAll.single_iff.2 (hall.included hincludes)
    · rwa [hnames hroles hstands]

/-- What an index is told includes a word of roles of its axioms in another such role just if the axioms do. -/
theorem Accounts.included_told_iff (hix : ix.Accounts) (hnames : ix.Unambiguous) {word : List String} {name : String}
    (hword : ∀ role ∈ word, ix.NamesRole role) (hname : ix.NamesRole name) :
    Included (Told ix.said) word name ↔ Included ix.Includes word name := by
  constructor
  · exact fun h => IncludedAll.single_iff.1 (hix.told_sound hnames h hword [name] (.role hname))
  · exact Included.of_forall fun hincludes hall => hix.included_of_includes hincludes hall

/-! ### Names that cannot clash -/

private theorem toList_suffixName (name : String) {rest : List String} (hrest : rest ≠ []) :
    (RoleExpression.suffixName (name :: rest)).toList = name.toList ++ '∘' :: (RoleExpression.suffixName rest).toList := by
  cases rest with
  | nil => exact absurd rfl hrest
  | cons next rest => simp [RoleExpression.suffixName]

private theorem append_cons_inj_of_notMem {c : Char} {xs ys xs' ys' : List Char} (hxs : c ∉ xs) (hys : c ∉ ys)
    (h : xs ++ c :: xs' = ys ++ c :: ys') : xs = ys ∧ xs' = ys' := by
  induction xs generalizing ys with
  | nil =>
    cases ys with
    | nil => exact ⟨rfl, (List.cons.inj h).2⟩
    | cons y ys => exact absurd ((List.cons.inj h).1 ▸ List.mem_cons_self ..) hys
  | cons x xs ih =>
    cases ys with
    | nil => exact absurd ((List.cons.inj h).1 ▸ List.mem_cons_self ..) hxs
    | cons y ys =>
      obtain ⟨rfl, hrest⟩ := List.cons.inj h
      obtain ⟨rfl, e⟩ := ih (fun hc => hxs (List.mem_cons_of_mem _ hc)) (fun hc => hys (List.mem_cons_of_mem _ hc)) hrest
      exact ⟨rfl, e⟩

private theorem suffixName_injective {names names' : List String} (hne : names ≠ []) (hne' : names' ≠ [])
    (hnames : ∀ name ∈ names, '∘' ∉ name.toList) (hnames' : ∀ name ∈ names', '∘' ∉ name.toList)
    (h : RoleExpression.suffixName names = RoleExpression.suffixName names') : names = names' := by
  induction names generalizing names' with
  | nil => exact absurd rfl hne
  | cons name rest ih =>
    cases names' with
    | nil => exact absurd rfl hne'
    | cons name' rest' =>
      have hname := hnames name (List.mem_cons_self ..)
      have hname' := hnames' name' (List.mem_cons_self ..)
      have htoList := congrArg String.toList h
      by_cases hrest : rest = [] <;> by_cases hrest' : rest' = []
      · subst hrest hrest'
        rw [show name = name' from h]
      · -- the name of one role has no joint in it
        rw [toList_suffixName name' hrest'] at htoList
        subst hrest
        exact absurd (htoList ▸ List.mem_append_right _ (List.mem_cons_self ..)) hname
      · rw [toList_suffixName name hrest] at htoList
        subst hrest'
        exact absurd (htoList ▸ List.mem_append_right _ (List.mem_cons_self ..)) hname'
      · rw [toList_suffixName name hrest, toList_suffixName name' hrest'] at htoList
        obtain ⟨e, e'⟩ := append_cons_inj_of_notMem hname hname' htoList
        rw [String.toList_inj.1 e, ih hrest hrest' (fun _ hmem => hnames _ (List.mem_cons_of_mem _ hmem))
          (fun _ hmem => hnames' _ (List.mem_cons_of_mem _ hmem)) (String.toList_inj.1 e')]

/-- Names without the sign that auxiliary names are joined with stand for one composition only. -/
theorem unambiguous_of_notMem (h : ∀ name, ix.NamesRole name → '∘' ∉ name.toList) : ix.Unambiguous := by
  have hstands {name : String} {roles : List String} (hs : ix.Stands name roles) :
      name = RoleExpression.suffixName roles ∧ roles ≠ [] ∧ ∀ role ∈ roles, '∘' ∉ role.toList := by
    cases hs with
    | role hname => exact ⟨rfl, List.cons_ne_nil _ _, List.forall_mem_singleton.2 (h name hname)⟩
    | auxiliary hchain _ hroles =>
      refine ⟨rfl, List.ne_nil_of_length_pos (by omega), fun role hrole => h role ⟨_, hchain, ?_⟩⟩
      exact List.mem_cons_of_mem _ (List.mem_append_right _ hrole)
  intro name roles roles' hroles hroles'
  obtain ⟨e, hne, hfree⟩ := hstands hroles
  obtain ⟨e', hne', hfree'⟩ := hstands hroles'
  exact suffixName_injective hne hne' hfree hfree' (e.symm.trans e')

end Index

end ELOntology
