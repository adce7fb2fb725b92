import ELOntology.Proofs.Role.Fits
import ELOntology.Proofs.Role.Words

/-!
# Chains of roles in pairs

A role hierarchy knows compositions of two roles only.  With the auxiliary roles it derives all that the axioms of its
index include, and nothing else of the roles of the axioms, as long as no role has the name of an auxiliary role.

Key fact: `Index.composes_iff`, over every history of an index.
-/

namespace ELOntology

namespace RoleHierarchy

/-- The hierarchy derives the inclusion of a word of roles in a role, by roles above others and by compositions of two. -/
inductive Composes (h : RoleHierarchy) : List RoleId → RoleId → Prop
  | self (role : RoleId) : Composes h [role] role
  | above {word : List RoleId} {role sup : RoleId} (hword : Composes h word role) (hsup : sup ∈ h.superRoles role) :
      Composes h word sup
  | compose {word word' : List RoleId} {left right sup : RoleId} (hleft : Composes h word left)
      (hright : Composes h word' right) (hsup : sup ∈ h.compositions left right) : Composes h (word ++ word') sup

end RoleHierarchy

namespace Index

variable {ix : Index}

namespace Accounts

/-- What is included in a role is included in the roles that told inclusions lead up to. -/
private theorem included_of_path (hix : ix.Accounts) {sub sup : RoleId} {n m : String} {word : List String}
    (hpath : Relation.ReflTransGen (fun below above => (below, above) ∈ ix.toldInclusions) sub sup)
    (hsub : ix.role? sub = some n) (hsup : ix.role? sup = some m) (hword : Included (Told ix.said) word n) :
    Included (Told ix.said) word m := by
  induction hpath generalizing m with
  | refl =>
    rw [hsub] at hsup
    cases hsup
    exact hword
  | tail _ htold ih =>
    obtain ⟨n', m', hrole, hsup', hsaid⟩ := hix.said_of_mem_toldInclusions htold
    rw [hsup] at hsup'
    cases hsup'
    exact (IncludedAll.single_iff.2 (ih hrole)).included (.inclusion hsaid)

/-- Below a role of the index there are only roles of the index. -/
private theorem exists_role?_of_path (hix : ix.Accounts) {sub sup : RoleId} {m : String}
    (hpath : Relation.ReflTransGen (fun below above => (below, above) ∈ ix.toldInclusions) sub sup)
    (hsup : ix.role? sup = some m) : ∃ n, ix.role? sub = some n := by
  rcases hpath.cases_head with rfl | ⟨above, htold, -⟩
  · exact ⟨m, hsup⟩
  · obtain ⟨n, _, hsub, -, -⟩ := hix.said_of_mem_toldInclusions htold
    exact ⟨n, hsub⟩

/-- A composition of the hierarchy includes what its parts include. -/
private theorem included_of_mem_compositions (hix : ix.Accounts) {left right sup : RoleId} {m : String}
    {word word' : List String} (h : sup ∈ (RoleHierarchy.build ix).compositions left right) (hsup : ix.role? sup = some m)
    (hleft : ∀ n, ix.role? left = some n → Included (Told ix.said) word n)
    (hright : ∀ n, ix.role? right = some n → Included (Told ix.said) word' n) :
    Included (Told ix.said) (word ++ word') m := by
  obtain ⟨l, r, htold, hl, hr⟩ := RoleHierarchy.mem_compositions.1 h
  obtain ⟨nl, nr, _, hnl, hnr, hns, hsaid⟩ := hix.said_of_mem_toldCompositions htold
  rw [hsup] at hns
  cases hns
  have hl' := (RoleHierarchy.mem_subRoles_build_iff.1 hl).2.swap
  have hr' := (RoleHierarchy.mem_subRoles_build_iff.1 hr).2.swap
  obtain ⟨n, hn⟩ := hix.exists_role?_of_path hl' hnl
  obtain ⟨n', hn'⟩ := hix.exists_role?_of_path hr' hnr
  have hword := hix.included_of_path hl' hn hnl (hleft n hn)
  have hword' := hix.included_of_path hr' hn' hnr (hright n' hn')
  exact IncludedAll.included (.cons hword (IncludedAll.single_iff.2 hword')) (.composition hsaid)

/-- What the hierarchy derives follows from what the index is told. -/
theorem included_of_composes (hix : ix.Accounts) {ids : List RoleId} {id : RoleId}
    (h : (RoleHierarchy.build ix).Composes ids id) {names : List String} {name : String} (hids : ix.RolesNamed ids names)
    (hid : ix.role? id = some name) : Included (Told ix.said) names name := by
  induction h generalizing names name with
  | self role =>
    cases hids with
    | cons hrole hnil =>
      cases hnil
      rw [hid] at hrole
      cases hrole
      exact .self _
  | above _ hsup ih =>
    obtain ⟨hlt, hpath⟩ := RoleHierarchy.mem_superRoles_build_iff.1 hsup
    obtain ⟨n, hn⟩ := exists_role? hlt
    exact hix.included_of_path hpath hn hid (ih hids hn)
  | compose _ _ hsup ihleft ihright =>
    obtain ⟨word, word', rfl, hword, hword'⟩ := forall₂_append_left hids
    exact hix.included_of_mem_compositions hsup hid (fun _ => ihleft hword) fun _ => ihright hword'

/-- What follows from what the index is told is derived by the hierarchy. -/
theorem composes_of_included (hix : ix.Accounts) {names : List String} {name : String}
    (h : Included (Told ix.said) names name) {ids : List RoleId} {id : RoleId} (hids : ix.RolesNamed ids names)
    (hid : ix.role? id = some name) : (RoleHierarchy.build ix).Composes ids id := by
  refine h.least (R := fun names name => ∀ ids id, ix.RolesNamed ids names → ix.role? id = some name →
    (RoleHierarchy.build ix).Composes ids id) (fun name ids id hids hid => ?_) ?_ ids id hids hid
  · cases hids with
    | cons hrole hnil =>
      cases hnil
      rw [hix.tidy.role_unique hrole hid]
      exact .self id
  · intro names name words htold hwords ids id hids hid
    cases htold with
    | inclusion hsaid =>
      obtain ⟨sub, sup, hsub, hsup, htold⟩ := hix.exists_mem_toldInclusions hsaid
      obtain rfl := hix.tidy.role_unique hsup hid
      cases hwords with
      | cons hword hnil =>
        cases hnil
        rw [List.flatten_singleton] at hids
        exact (hword ids sub hids hsub).above (RoleHierarchy.mem_superRoles_build_iff.2
          ⟨lt_size_of_role? hsub, .single htold⟩)
    | composition hsaid =>
      obtain ⟨left, right, sup, hleft, hright, hsup, htold⟩ := hix.exists_mem_toldCompositions hsaid
      obtain rfl := hix.tidy.role_unique hsup hid
      match hwords with
      | .cons hword (.cons hword' .nil) =>
        rw [List.flatten_cons, List.flatten_singleton] at hids
        obtain ⟨first, second, rfl, hfirst, hsecond⟩ := forall₂_append_left hids.flip
        refine (hword first left hfirst.flip hleft).compose (hword' second right hsecond.flip hright)
          (RoleHierarchy.mem_compositions.2 ⟨left, right, htold, ?_, ?_⟩)
        · exact RoleHierarchy.subRoles_build_refl (lt_size_of_role? hleft)
        · exact RoleHierarchy.subRoles_build_refl (lt_size_of_role? hright)

end Accounts

private theorem exists_ids {names : List String} (h : ∀ name ∈ names, ix.KnowsRole name) :
    ∃ ids, List.Forall₂ (fun name id => ix.roleId? name = some id) names ids := by
  induction names with
  | nil => exact ⟨[], .nil⟩
  | cons name names ih =>
    rw [List.forall_mem_cons] at h
    obtain ⟨id, hid⟩ := h.1
    obtain ⟨ids, hids⟩ := ih h.2
    exact ⟨id :: ids, .cons hid hids⟩

/-- What the index is told of roles that its axioms name is derived under their numbers. -/
private theorem exists_composes (calls : List Call) {word : List String} {name : String}
    (hword : ∀ role ∈ word, (after calls).NamesRole role) (hname : (after calls).NamesRole name)
    (h : Included (Told (after calls).said) word name) : ∃ ids id,
      List.Forall₂ (fun role id => (after calls).roleId? role = some id) word ids ∧
        (after calls).roleId? name = some id ∧ (RoleHierarchy.build (after calls)).Composes ids id := by
  obtain ⟨id, hid⟩ := knowsRole_of_names calls hname
  obtain ⟨ids, hids⟩ := exists_ids fun role hrole => knowsRole_of_names calls (hword role hrole)
  have hix := accounts_after calls
  refine ⟨ids, id, hids, hid, hix.composes_of_included h ?_ (hix.tidy.roleId?_iff.1 hid)⟩
  exact hids.flip.imp fun _ _ hrole => hix.tidy.roleId?_iff.1 hrole

/-- As long as every name stands for one composition only, the hierarchy of an index derives of the roles that its axioms
name just what the axioms include. -/
theorem composes_iff (calls : List Call) (hnames : (after calls).Unambiguous) {word : List String} {name : String}
    (hword : ∀ role ∈ word, (after calls).NamesRole role) (hname : (after calls).NamesRole name) :
    Included (after calls).Includes word name ↔ ∃ ids id,
      List.Forall₂ (fun role id => (after calls).roleId? role = some id) word ids ∧
        (after calls).roleId? name = some id ∧ (RoleHierarchy.build (after calls)).Composes ids id := by
  have hix := accounts_after calls
  rw [← hix.included_told_iff hnames hword hname]
  constructor
  · exact exists_composes calls hword hname
  · rintro ⟨ids, id, hids, hid, h⟩
    exact hix.included_of_composes h (hids.flip.imp fun _ _ hrole => hix.tidy.roleId?_iff.1 hrole)
      (hix.tidy.roleId?_iff.1 hid)

private theorem containsAxiom_assert (hix : ix.Accounts) {a b : Axiom} {said : List TermEntry} (hsaid : a.entries? = some said) :
    (ix.assert a).2.containsAxiom b = true ↔ ix.containsAxiom b = true ∨ b = a := by
  obtain ⟨hix', -, -, hspec⟩ := hix.assert a
  rw [hsaid] at hspec
  rw [hix'.containsAxiom_iff, hix.containsAxiom_iff, hspec.2 b]
  by_cases hb : b = a <;> simp [hb]

private def chainIndex : Index := after [.assert (.subRoleOf (.chain ["r", "s", "t"]) "u")]

theorem composes_iff_chain : chainIndex.Unambiguous ∧ (∀ role ∈ ["r", "s", "t"], chainIndex.NamesRole role) ∧
    chainIndex.NamesRole "u" ∧ ∃ ids id,
      List.Forall₂ (fun role id => chainIndex.roleId? role = some id) ["r", "s", "t"] ids ∧
        chainIndex.roleId? "u" = some id ∧ (RoleHierarchy.build chainIndex).Composes ids id := by
  have hcontains {a : Axiom} : chainIndex.containsAxiom a = true ↔ a = .subRoleOf (.chain ["r", "s", "t"]) "u" := by
    refine (containsAxiom_assert accounts_empty rfl).trans ?_
    rw [containsAxiom, axioms_empty]
    simp
  have hnamed (role : String) : chainIndex.NamesRole role ↔ role ∈ ["u", "r", "s", "t"] := by
    simp [NamesRole, hcontains, Axiom.roleNames, RoleExpression.roleNames]
  have hnames : chainIndex.Unambiguous := unambiguous_of_notMem fun role hrole => by
    have hfree : ∀ role ∈ ["u", "r", "s", "t"], '∘' ∉ role.toList := by decide
    exact hfree role ((hnamed role).1 hrole)
  have hword : ∀ role ∈ ["r", "s", "t"], chainIndex.NamesRole role := fun role hrole =>
    (hnamed role).2 (List.mem_cons_of_mem _ hrole)
  have hname : chainIndex.NamesRole "u" := (hnamed "u").2 (List.mem_cons_self ..)
  refine ⟨hnames, hword, hname, (composes_iff _ hnames hword hname).1 ?_⟩
  exact (IncludedAll.self ["r", "s", "t"]).included ⟨_, hcontains.2 rfl, .chain⟩

/-- A role of an axiom that has the name of an auxiliary role is taken for it: with `r ∘ s ∘ t` asserted to be included in
`u`, so is the composition of `r` with a role of the name `s∘t`. -/
theorem composes_auxiliary (calls : List Call) {first sup : String} {earlier later : List String}
    (h : (after calls).containsAxiom (.subRoleOf (.chain (first :: (earlier ++ later))) sup) = true) (hlater : later ≠ [])
    (hclash : (after calls).NamesRole (RoleExpression.suffixName later)) : ∃ ids id,
      List.Forall₂ (fun role id => (after calls).roleId? role = some id)
        (first :: (earlier ++ [RoleExpression.suffixName later])) ids ∧
        (after calls).roleId? sup = some id ∧ (RoleHierarchy.build (after calls)).Composes ids id := by
  have hix := accounts_after calls
  refine exists_composes calls ?_ ⟨_, h, List.mem_cons_self ..⟩ (hix.included_auxiliary h hlater)
  intro role hrole
  rcases List.mem_cons.1 hrole with rfl | hrole
  · exact ⟨_, h, List.mem_cons_of_mem _ (List.mem_cons_self ..)⟩
  · rcases List.mem_append.1 hrole with hrole | hrole
    · exact ⟨_, h, List.mem_cons_of_mem _ (List.mem_cons_of_mem _ (List.mem_append_left _ hrole))⟩
    · rwa [List.mem_singleton.1 hrole]

end Index

end ELOntology
