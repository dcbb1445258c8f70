import MethodLowering.Proofs.Check.Closure

/-!
Elimination after elimination and after injection. What a reduced block asks about was asked about
in the block it comes from, so a check that was kept because nothing asked about its class before is
kept again: a second elimination changes nothing. A check in front of the entry stands before every
instruction that the entry reaches, so with it every other check of its class can be left out there,
and no check of another class becomes needless or needed.
-/

set_option autoImplicit false
set_option relaxedAutoImplicit false

namespace MethodLowering

/-! ### Elimination twice -/

namespace Body

variable {body reduced other : Body} {hasInitializer : String → Bool} {p : Instr → Prop}
  {number start index : Nat} {block : Block} {code : List Instr} {instr : Instr}

theorem Eliminated.unique (h : body.Eliminated hasInitializer reduced)
    (hother : body.Eliminated hasInitializer other) : other = reduced := by
  have hblocks : other.blocks = reduced.blocks := by
    apply List.ext_getElem?
    intro number
    cases hblock : body.blocks[number]? with
    | none =>
      rw [List.getElem?_eq_none_iff] at hblock
      rw [List.getElem?_eq_none (hother.length ▸ hblock), List.getElem?_eq_none (h.length ▸ hblock)]
    | some block =>
      by_cases hreaches : body.graph.Reaches 0 number
      · rw [hother.reached number block hblock hreaches, h.reached number block hblock hreaches]
      · rw [hother.unreached number block hblock hreaches,
          h.unreached number block hblock hreaches]
  obtain ⟨vars, blocks⟩ := other
  rw [Body.mk.injEq]
  exact ⟨hother.vars.trans h.vars.symm, hblocks⟩

theorem Eliminated.eliminate?_eq (h : body.Eliminated hasInitializer reduced)
    (hclosed : body.graph.Closed) : body.eliminate? hasInitializer = some reduced := by
  obtain ⟨found, hfound, helim⟩ := eliminate?_of_closed hasInitializer hclosed
  rw [hfound, h.unique helim]

theorem neededCode_eq_self (h : ∀ k instr, code[k]? = some instr →
    ¬ body.Needless hasInitializer number (start + k) instr) :
    body.neededCode hasInitializer number start code = code := by
  induction code generalizing start with
  | nil => rfl
  | cons first rest ih =>
    have hfirst : ¬ body.Needless hasInitializer number start first := h 0 first rfl
    have hrest : body.neededCode hasInitializer number (start + 1) rest = rest := by
      apply ih
      intro k instr hinstr
      have hlater := h (k + 1) instr hinstr
      rwa [← Nat.add_assoc, Nat.add_right_comm] at hlater
    rw [neededCode_cons hfirst, hrest]

/-- An instruction that is kept has a place in the original code, with what is kept before it among
what stands before that place. -/
theorem exists_place_of_neededCode {k : Nat}
    (h : (body.neededCode hasInitializer number start code)[k]? = some instr) :
    ∃ i, code[i]? = some instr ∧ ¬ body.Needless hasInitializer number (start + i) instr ∧
      (body.neededCode hasInitializer number start code).take k ⊆ code.take i := by
  induction code generalizing start k with
  | nil => exact absurd h nofun
  | cons first rest ih =>
    by_cases hneedless : body.Needless hasInitializer number start first
    · rw [neededCode_cons_of_needless hneedless] at h ⊢
      obtain ⟨i, hi, hkept, hbefore⟩ := ih h
      refine ⟨i + 1, hi, ?_, List.subset_cons_of_subset first hbefore⟩
      rwa [← Nat.add_assoc, Nat.add_right_comm]
    · rw [neededCode_cons hneedless] at h ⊢
      cases k with
      | zero =>
        obtain rfl : first = instr := Option.some.inj h
        exact ⟨0, rfl, hneedless, List.Subset.refl _⟩
      | succ k =>
        obtain ⟨i, hi, hkept, hbefore⟩ := ih h
        refine ⟨i + 1, hi, ?_, List.cons_subset_cons first hbefore⟩
        rwa [← Nat.add_assoc, Nat.add_right_comm]

theorem Eliminated.contains (helim : body.Eliminated hasInitializer reduced)
    (h : reduced.Contains p number) : body.Contains p number := by
  obtain ⟨block, hblock, instr, hinstr, hp⟩ := h
  obtain ⟨b, hb, -, hcode, -⟩ := helim.of_getElem? hblock
  exact ⟨b, hb, instr, hcode instr hinstr, hp⟩

theorem Eliminated.not_needless (helim : body.Eliminated hasInitializer reduced)
    (hreaches : body.graph.Reaches 0 number) (hblock : reduced.blocks[number]? = some block)
    (hinstr : block.code[index]? = some instr) :
    ¬ reduced.Needless hasInitializer number index instr := by
  obtain ⟨b, hb, -⟩ := helim.of_getElem? hblock
  have hreduced := helim.reached number b hb hreaches
  rw [hblock, Option.some.injEq] at hreduced
  subst hreduced
  obtain ⟨i, -, hkept, hbefore⟩ := exists_place_of_neededCode hinstr
  rw [Nat.zero_add] at hkept
  rintro ⟨name, hcheck, hwhy⟩
  refine hkept ⟨name, hcheck, hwhy.imp_right ?_⟩
  rintro (⟨b', hb', asking, hasking, hasks⟩ | ⟨d, hne, hdom, hasks⟩)
  · obtain rfl := Option.some.inj (hblock.symm.trans hb')
    exact .inl ⟨b, hb, asking, hbefore hasking, hasks⟩
  · rw [helim.graph_eq] at hdom
    exact .inr ⟨d, hne, hdom, helim.contains hasks⟩

theorem Eliminated.eliminated_self (helim : body.Eliminated hasInitializer reduced) :
    reduced.Eliminated hasInitializer reduced where
  vars := rfl
  length := rfl
  unreached _ _ hblock _ := hblock
  reached number block hblock hreaches := by
    rw [helim.graph_eq] at hreaches
    rw [hblock, neededCode_eq_self fun k instr hinstr => ?_]
    rw [Nat.zero_add]
    exact helim.not_needless hreaches hblock hinstr

/-- Elimination succeeds on every closed body, and a second elimination with the same classes
succeeds on what came out and leaves it as it is. -/
theorem eliminate?_idempotent (hasInitializer : String → Bool) (body : Body)
    (hclosed : body.graph.Closed) :
    ∃ reduced, body.eliminate? hasInitializer = some reduced ∧
      reduced.eliminate? hasInitializer = some reduced := by
  obtain ⟨reduced, hreduced, helim⟩ := eliminate?_of_closed hasInitializer hclosed
  exact ⟨reduced, hreduced, helim.eliminated_self.eliminate?_eq (helim.closed hclosed)⟩

/-- Tests, checks and calls of initializers in a loop that is entered at two blocks, and a block
that nothing leads to. -/
def mixedLoop : Body where
  vars := [⟨none, none⟩]
  blocks := [⟨[.check "A", .check "N", .test 0 "B"], .branch 0 1 2⟩,
    ⟨[.check "B", .check "C", .invoke none none (MethodRef.classInitializer "D") [], .check "D"],
      .branch 0 2 3⟩,
    ⟨[.check "C", .check "A", .test 0 "C", .check "C"], .jump 1⟩,
    ⟨[.check "D", .check "C", .check "E"], .exit none⟩, ⟨[.check "A", .check "A"], .jump 1⟩]

theorem eliminate?_idempotent_mixedLoop :
    mixedLoop.graph.Closed ∧
      ∃ reduced, mixedLoop.eliminate? (· != "N") = some reduced ∧
        reduced.eliminate? (· != "N") = some reduced :=
  ⟨by decide, eliminate?_idempotent (· != "N") mixedLoop (by decide)⟩

end Body

/-! ### Elimination after injection -/

def Block.withoutChecks (name : String) (block : Block) : Block :=
  { block with code := block.code.filter fun instr => decide (instr ≠ .check name) }

namespace EntryCheck

/-- The method is a constructor, or a static method other than a class initializer, and its class
has an initializer. -/
def Due (hasInitializer : String → Bool) (method : Method) : Prop :=
  (method.ref.selector.name = Selector.constructorName ∨
      method.flags.isStatic = true ∧ method.ref.selector.name ≠ Selector.classInitializerName) ∧
    hasInitializer method.ref.owner = true

instance (hasInitializer : String → Bool) (method : Method) :
    Decidable (Due hasInitializer method) :=
  inferInstanceAs (Decidable (_ ∧ _))

theorem wanted_iff {hasInitializer : String → Bool} {method : Method} :
    wanted hasInitializer method = true ↔ Due hasInitializer method := by
  have hneeds : method.needsEntryCheck = true ↔
      method.ref.selector.name = Selector.constructorName ∨ method.flags.isStatic = true ∧
        method.ref.selector.name ≠ Selector.classInitializerName := by
    unfold Method.needsEntryCheck Selector.isClassInitializer Selector.isConstructor
    by_cases hinit : method.ref.selector.name = Selector.classInitializerName
    · have hne : Selector.classInitializerName ≠ Selector.constructorName := by decide
      simp [hinit, hne]
    · by_cases hname : method.ref.selector.name = Selector.constructorName
      · simp [hname, hname ▸ hinit]
      · simp [hinit, hname]
  unfold wanted Due
  rw [Bool.and_eq_true, hneeds]

end EntryCheck

namespace Graph

theorem entry_dominates (g : Graph) (block : Nat) : g.Dominates 0 block := by
  intro blocks hpath
  cases hpath with
  | single => exact List.mem_singleton_self 0
  | step => exact List.mem_cons_self

end Graph

namespace Body

variable {body reduced : Body} {hasInitializer : String → Bool} {p : Instr → Prop}
  {first : Instr} {number index : Nat} {name : String}

/-- The body with an instruction in front of the entry block, if there is one. -/
def startWith (first : Instr) (body : Body) : Body :=
  body.modifyEntry fun entry => { entry with code := first :: entry.code }

open Classical in
/-- The body without the checks of a class in the blocks that the entry reaches. -/
noncomputable def withoutChecks (name : String) (body : Body) : Body :=
  { body with
    blocks := body.blocks.mapIdx fun number block =>
      if body.graph.Reaches 0 number then block.withoutChecks name else block }

/-- Among the blocks that the entry reaches only the entry checks the class, once and before
anything else. -/
structure ChecksOnEntry (name : String) (body : Body) : Prop where
  entry : ∃ code terminator, body.blocks[0]? = some ⟨.check name :: code, terminator⟩ ∧
    .check name ∉ code
  others : ∀ (number : Nat) (block : Block), body.blocks[number]? = some block →
    body.graph.Reaches 0 number → number ≠ 0 → .check name ∉ block.code

theorem inject_eq_startWith {method : Method} (h : EntryCheck.Due hasInitializer method) :
    EntryCheck.inject hasInitializer method body =
      body.startWith (.check method.ref.owner) :=
  if_pos (EntryCheck.wanted_iff.2 h)

theorem inject_eq_self {method : Method} (h : ¬ EntryCheck.Due hasInitializer method) :
    EntryCheck.inject hasInitializer method body = body :=
  if_neg fun hwanted => h (EntryCheck.wanted_iff.1 hwanted)

/-! ### Blocks and targets -/

theorem getElem?_startWith (first : Instr) (body : Body) (number : Nat) :
    (body.startWith first).blocks[number]? = (body.blocks[number]?).map fun block =>
      if number = 0 then { block with code := first :: block.code } else block := by
  unfold startWith modifyEntry
  cases body.blocks with
  | nil => rfl
  | cons entry rest => cases number <;> simp

theorem getElem?_startWith_of_not_reaches (first : Instr)
    (hreaches : ¬ body.graph.Reaches 0 number) :
    (body.startWith first).blocks[number]? = body.blocks[number]? := by
  have hnumber : number ≠ 0 := by
    rintro rfl
    exact hreaches (.refl _ 0)
  simp [getElem?_startWith, hnumber]

theorem getElem?_withoutChecks_of_reaches (name : String)
    (hreaches : body.graph.Reaches 0 number) :
    (body.withoutChecks name).blocks[number]? =
      (body.blocks[number]?).map (Block.withoutChecks name) := by
  simp [withoutChecks, hreaches]

theorem getElem?_withoutChecks_of_not_reaches (name : String)
    (hreaches : ¬ body.graph.Reaches 0 number) :
    (body.withoutChecks name).blocks[number]? = body.blocks[number]? := by
  simp [withoutChecks, hreaches]

theorem length_startWith (first : Instr) (body : Body) :
    (body.startWith first).blocks.length = body.blocks.length :=
  List.length_modifyHead

theorem length_withoutChecks (name : String) (body : Body) :
    (body.withoutChecks name).blocks.length = body.blocks.length :=
  List.length_mapIdx

theorem graph_startWith (first : Instr) (body : Body) :
    (body.startWith first).graph = body.graph := by
  refine congrArg Graph.mk (List.ext_getElem? fun number => ?_)
  rw [List.getElem?_map, List.getElem?_map, getElem?_startWith, Option.map_map]
  congr 1
  funext block
  unfold Function.comp
  split <;> rfl

theorem graph_withoutChecks (name : String) (body : Body) :
    (body.withoutChecks name).graph = body.graph := by
  refine congrArg Graph.mk (List.ext_getElem? fun number => ?_)
  rw [List.getElem?_map, List.getElem?_map]
  by_cases hreaches : body.graph.Reaches 0 number
  · rw [getElem?_withoutChecks_of_reaches name hreaches, Option.map_map]
    rfl
  · rw [getElem?_withoutChecks_of_not_reaches name hreaches]

/-! ### What is asked about before a place -/

theorem contains_startWith_iff (hblocks : 0 < body.blocks.length) :
    (body.startWith first).Contains p number ↔ number = 0 ∧ p first ∨ body.Contains p number := by
  unfold Contains
  rw [getElem?_startWith]
  by_cases hnumber : number = 0
  · rw [hnumber, List.getElem?_eq_getElem hblocks]
    simp
  · simp [hnumber]

theorem onEntry_startWith_iff (hblocks : 0 < body.blocks.length) :
    (body.startWith first).OnEntry p number ↔
      number ≠ 0 ∧ p first ∨ body.OnEntry p number := by
  unfold OnEntry
  rw [graph_startWith]
  constructor
  · rintro ⟨d, hne, hdom, hcontains⟩
    obtain ⟨rfl, hp⟩ | hold := (contains_startWith_iff hblocks).1 hcontains
    · exact .inl ⟨Ne.symm hne, hp⟩
    · exact .inr ⟨d, hne, hdom, hold⟩
  · rintro (⟨hne, hp⟩ | ⟨d, hne, hdom, hcontains⟩)
    · exact ⟨0, Ne.symm hne, body.graph.entry_dominates number,
        (contains_startWith_iff hblocks).2 (.inl ⟨rfl, hp⟩)⟩
    · exact ⟨d, hne, hdom, (contains_startWith_iff hblocks).2 (.inr hcontains)⟩

theorem not_onEntry_entry : ¬ body.OnEntry p 0 := by
  rintro ⟨d, hne, hdom, -⟩
  exact hne (Graph.dominates_entry_iff.1 hdom)

/-- By how much places in a block move when an instruction is put in front of the entry. -/
def shift (number : Nat) : Nat := if number = 0 then 1 else 0

theorem before_startWith_iff (hblocks : 0 < body.blocks.length) :
    (body.startWith first).Before p number (shift number + index) ↔
      p first ∨ body.Before p number index := by
  unfold Before
  rw [onEntry_startWith_iff hblocks, getElem?_startWith]
  by_cases hnumber : number = 0
  · subst hnumber
    rw [List.getElem?_eq_getElem hblocks, shift, if_pos rfl, Nat.add_comm]
    simp [not_onEntry_entry]
  · rw [shift, if_neg hnumber, Nat.zero_add]
    simp only [hnumber, if_false, Option.map_id', ne_eq, not_false_iff, true_and]
    exact or_left_comm

/-! ### What is kept -/

theorem needless_startWith_iff (hasInitializer : String → Bool) (name : String) (instr : Instr)
    (number index : Nat) (hblocks : 0 < body.blocks.length) :
    (body.startWith (.check name)).Needless hasInitializer number (shift number + index) instr ↔
      body.Needless hasInitializer number index instr ∨ instr = .check name := by
  unfold Needless
  constructor
  · rintro ⟨other, rfl, hwhy⟩
    rw [before_startWith_iff hblocks] at hwhy
    obtain hno | hasks | hbefore := hwhy
    · exact .inl ⟨other, rfl, .inl hno⟩
    · exact .inr (congrArg Instr.check (Option.some.inj hasks).symm)
    · exact .inl ⟨other, rfl, .inr hbefore⟩
  · rintro (⟨other, rfl, hwhy⟩ | rfl)
    · exact ⟨other, rfl, hwhy.imp_right fun h => (before_startWith_iff hblocks).2 (.inr h)⟩
    · exact ⟨name, rfl, .inr ((before_startWith_iff hblocks).2 (.inl rfl))⟩

theorem neededCode_startWith (hasInitializer : String → Bool) (name : String) (code : List Instr)
    (number start : Nat) (hblocks : 0 < body.blocks.length) :
    (body.startWith (.check name)).neededCode hasInitializer number (shift number + start) code =
      (body.neededCode hasInitializer number start code).filter
        fun instr => decide (instr ≠ .check name) := by
  induction code generalizing start with
  | nil => rfl
  | cons instr rest ih =>
    have hstep := needless_startWith_iff hasInitializer name instr number start hblocks
    have hrest := ih (start + 1)
    by_cases hneedless : body.Needless hasInitializer number start instr
    · rw [neededCode_cons_of_needless (hstep.2 (.inl hneedless)),
        neededCode_cons_of_needless hneedless]
      exact hrest
    · rw [neededCode_cons hneedless]
      by_cases hcheck : instr = .check name
      · rw [neededCode_cons_of_needless (hstep.2 (.inr hcheck)),
          List.filter_cons_of_neg (by simpa using hcheck)]
        exact hrest
      · have hkept := fun h => (hstep.1 h).elim hneedless hcheck
        rw [neededCode_cons hkept, List.filter_cons_of_pos (by simpa using hcheck)]
        exact congrArg (instr :: ·) hrest

theorem not_needless_entry (hname : hasInitializer name = true) :
    ¬ body.Needless hasInitializer 0 0 (.check name) := by
  rintro ⟨other, hother, hwhy⟩
  obtain rfl := Instr.check.inj hother
  obtain hno | ⟨b, -, instr, hinstr, -⟩ | hentry := hwhy
  · exact absurd hname (hno ▸ Bool.false_ne_true)
  · exact absurd hinstr List.not_mem_nil
  · exact not_onEntry_entry hentry

/-- With a check in front of the entry the other checks of its class are dropped, and all else is
kept that was kept without it. -/
theorem Eliminated.startWith (helim : body.Eliminated hasInitializer reduced)
    (hblocks : 0 < body.blocks.length) (hname : hasInitializer name = true) :
    (body.startWith (.check name)).Eliminated hasInitializer
      ((reduced.withoutChecks name).startWith (.check name)) where
  vars := helim.vars
  length := by
    rw [length_startWith, length_withoutChecks, length_startWith, helim.length]
  unreached number block hblock hreaches := by
    rw [graph_startWith] at hreaches
    rw [getElem?_startWith_of_not_reaches _ hreaches] at hblock
    have hkept : ¬ reduced.graph.Reaches 0 number := helim.graph_eq ▸ hreaches
    rw [getElem?_startWith_of_not_reaches _ (graph_withoutChecks name reduced ▸ hkept),
      getElem?_withoutChecks_of_not_reaches name hkept]
    exact helim.unreached number block hblock hreaches
  reached number block hblock hreaches := by
    rw [graph_startWith] at hreaches
    rw [getElem?_startWith, Option.map_eq_some_iff] at hblock
    obtain ⟨b, hb, rfl⟩ := hblock
    have hkept := neededCode_startWith hasInitializer name b.code number 0 hblocks
    rw [getElem?_startWith, getElem?_withoutChecks_of_reaches name (helim.graph_eq ▸ hreaches),
      helim.reached number b hb hreaches, Option.map_some, Option.map_some, Block.withoutChecks]
    by_cases hnumber : number = 0
    · subst hnumber
      simp only [if_pos]
      rw [neededCode_cons (not_needless_entry hname), ← hkept]
      rfl
    · rw [shift, if_neg hnumber] at hkept
      rw [if_neg hnumber, if_neg hnumber, hkept]

/-! ### What comes out -/

theorem withoutChecks_ite (number : Nat) (block : Block) :
    (if number = 0 then { block with code := .check name :: block.code }
      else block).withoutChecks name = block.withoutChecks name := by
  split
  · unfold Block.withoutChecks
    rw [List.filter_cons_of_neg (by simp)]
  · rfl

theorem withoutChecks_withoutChecks (block : Block) :
    (block.withoutChecks name).withoutChecks name = block.withoutChecks name := by
  simp [Block.withoutChecks]

theorem not_mem_withoutChecks (block : Block) : .check name ∉ (block.withoutChecks name).code := by
  simp [Block.withoutChecks]

/-- A check in front of the entry, and checks dropped before it was put there, make no difference
when all checks of the class are dropped. -/
theorem withoutChecks_startWith_withoutChecks (name : String) (body : Body) :
    ((body.withoutChecks name).startWith (.check name)).withoutChecks name =
      body.withoutChecks name := by
  refine congrArg (Body.mk body.vars) (List.ext_getElem? fun number => ?_)
  have hgraph : ((body.withoutChecks name).startWith (.check name)).graph = body.graph := by
    rw [graph_startWith, graph_withoutChecks]
  by_cases hreaches : body.graph.Reaches 0 number
  · have hafter := getElem?_withoutChecks_of_reaches name (hgraph.symm ▸ hreaches)
    refine hafter.trans ?_
    rw [getElem?_startWith, getElem?_withoutChecks_of_reaches name hreaches]
    simp only [Option.map_map, Function.comp_def, withoutChecks_ite, withoutChecks_withoutChecks]
    exact (getElem?_withoutChecks_of_reaches name hreaches).symm
  · have hafter := getElem?_withoutChecks_of_not_reaches name (hgraph.symm ▸ hreaches)
    refine hafter.trans (getElem?_startWith_of_not_reaches _ ?_)
    rw [graph_withoutChecks]
    exact hreaches

theorem map_withoutChecks_eq (name : String) (body : Body) :
    ((body.withoutChecks name).startWith (.check name)).blocks.map (Block.withoutChecks name) =
      body.blocks.map (Block.withoutChecks name) := by
  refine List.ext_getElem? fun number => ?_
  rw [List.getElem?_map, List.getElem?_map, getElem?_startWith]
  simp only [Option.map_map, Function.comp_def, withoutChecks_ite]
  by_cases hreaches : body.graph.Reaches 0 number
  · rw [getElem?_withoutChecks_of_reaches name hreaches]
    simp only [Option.map_map, Function.comp_def, withoutChecks_withoutChecks]
  · rw [getElem?_withoutChecks_of_not_reaches name hreaches]

theorem checksOnEntry_startWith (hblocks : 0 < body.blocks.length) (name : String) :
    ((body.withoutChecks name).startWith (.check name)).ChecksOnEntry name := by
  constructor
  · have hentry : body.blocks[0]? = some body.blocks[0] := List.getElem?_eq_getElem hblocks
    refine ⟨(body.blocks[0].withoutChecks name).code, body.blocks[0].terminator, ?_,
      not_mem_withoutChecks _⟩
    rw [getElem?_startWith, getElem?_withoutChecks_of_reaches name (.refl _ 0), hentry]
    rfl
  · intro number block hblock hreaches hnumber
    rw [graph_startWith, graph_withoutChecks] at hreaches
    rw [getElem?_startWith, getElem?_withoutChecks_of_reaches name hreaches] at hblock
    simp only [hnumber, if_false, Option.map_id', Option.map_eq_some_iff] at hblock
    obtain ⟨b, -, rfl⟩ := hblock
    exact not_mem_withoutChecks b

open EntryCheck

/-- Elimination drops from a body with its entry check what it drops without, and every check of the
same class that the entry reaches, the new one apart. What comes out checks the class once and
first, has the checks of all other classes that come out without the entry check, and is the same
after a second injection. A method that calls for no entry check leaves the body as it is. -/
theorem eliminate?_inject (hasInitializer : String → Bool) (method : Method) (body : Body)
    (hblocks : 0 < body.blocks.length) (hclosed : body.graph.Closed) :
    (Due hasInitializer method → ∃ reduced result,
      body.eliminate? hasInitializer = some reduced ∧
      (inject hasInitializer method body).eliminate? hasInitializer = some result ∧
      result = (reduced.withoutChecks method.ref.owner).startWith (.check method.ref.owner) ∧
      result.ChecksOnEntry method.ref.owner ∧
      result.blocks.map (Block.withoutChecks method.ref.owner) =
        reduced.blocks.map (Block.withoutChecks method.ref.owner) ∧
      (inject hasInitializer method (inject hasInitializer method body)).eliminate?
        hasInitializer = some result) ∧
    (¬ Due hasInitializer method → inject hasInitializer method body = body) := by
  refine ⟨fun hdue => ?_, inject_eq_self⟩
  obtain ⟨reduced, hreduced, helim⟩ := eliminate?_of_closed hasInitializer hclosed
  have honce := helim.startWith hblocks hdue.2
  have htwice := honce.startWith ((length_startWith _ body).symm ▸ hblocks) hdue.2
  rw [withoutChecks_startWith_withoutChecks] at htwice
  refine ⟨reduced, _, hreduced, ?_, rfl, checksOnEntry_startWith (helim.length.symm ▸ hblocks) _,
    map_withoutChecks_eq _ reduced, ?_⟩
  · rw [inject_eq_startWith hdue]
    exact honce.eliminate?_eq ((graph_startWith _ body).symm ▸ hclosed)
  · rw [inject_eq_startWith hdue, inject_eq_startWith hdue]
    refine htwice.eliminate?_eq ?_
    rw [graph_startWith, graph_startWith]
    exact hclosed

/-- A loop back to the entry, in which the class of the method is tested and checked, and a block of
checks that nothing leads to. -/
def reentered : Body where
  vars := [⟨none, none⟩]
  blocks := [⟨[.test 0 "A", .check "B", .check "A"], .branch 0 1 2⟩,
    ⟨[.check "A", .check "B", .check "C"], .jump 0⟩,
    ⟨[.check "C", .check "A", .check "N"], .exit none⟩, ⟨[.check "A", .check "N"], .jump 2⟩]

def sharedMethod (flags : AccessFlags) : Method := ⟨⟨"A", ⟨"shared", ⟨[], none⟩⟩⟩, flags, none⟩

theorem eliminate?_inject_reentered :
    0 < reentered.blocks.length ∧ reentered.graph.Closed ∧
      Due (· != "N") (sharedMethod .static) ∧ ¬ Due (· != "N") (sharedMethod .native) ∧
      (∃ reduced result, reentered.eliminate? (· != "N") = some reduced ∧
        (inject (· != "N") (sharedMethod .static) reentered).eliminate? (· != "N") = some result ∧
        result = (reduced.withoutChecks "A").startWith (.check "A") ∧ result.ChecksOnEntry "A" ∧
        result.blocks.map (Block.withoutChecks "A") =
          reduced.blocks.map (Block.withoutChecks "A") ∧
        (inject (· != "N") (sharedMethod .static)
          (inject (· != "N") (sharedMethod .static) reentered)).eliminate? (· != "N") =
            some result) ∧
      inject (· != "N") (sharedMethod .native) reentered = reentered :=
  ⟨by decide, by decide, by decide, by decide,
    (eliminate?_inject (· != "N") (sharedMethod .static) reentered (by decide) (by decide)).1
      (by decide),
    (eliminate?_inject (· != "N") (sharedMethod .native) reentered (by decide) (by decide)).2
      (by decide)⟩

example : ((reentered.startWith (.check "A")).eliminate? (· != "N")).map
      (fun result => result.blocks.map Block.code) =
    some [[.check "A", .test 0 "A", .check "B"], [.check "C"], [.check "C"],
      [.check "A", .check "N"]] := by cbv

end Body

end MethodLowering
