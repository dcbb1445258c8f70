import MethodLowering.Proofs.Check.Closure
import MethodLowering.Proofs.Check.Dangling

/-!
Redirected targets. Expansion leaves the numbers in terminators as they are and appends blocks, so
a target that named no block before may name an appended block afterwards: control then goes on
inside the block that the appended one was split from. What fails to be traversed after expansion
failed before, but not the other way round.
-/

set_option autoImplicit false
set_option relaxedAutoImplicit false

namespace MethodLowering

namespace Expansion

variable {number flag x target : Nat} {body : Body} {pending blocks : List Block} {block : Block}
  {code : List Instr} {terminator : Terminator} {links : List Link} {chains : Nat → List Link}

/-- The number is that of the block where a chain with these links starts, or of one of the blocks
that were split from it. -/
def PartOf (links : List Link) (block number : Nat) : Prop :=
  number = block ∨ ∃ link ∈ links, number ∈ link.blocks

theorem partOf_nil_iff : PartOf [] number x ↔ x = number := by
  simp [PartOf]

theorem partOf_cons_iff {link : Link} : PartOf (link :: links) number x ↔
    x = number ∨ x = link.init ∨ PartOf links link.next x := by
  simp only [PartOf, List.mem_cons, exists_eq_or_imp, Link.blocks, List.not_mem_nil, or_false]
  exact or_congr_right (by rw [or_assoc, or_left_comm])

theorem Chain.block_of_part (h : Chain blocks number code terminator links)
    (hx : PartOf links number x) :
    (∃ rest, rest ⊆ code ∧ blocks[x]? = some ⟨rest, terminator⟩) ∨
      ∃ link ∈ links, ∃ name, .check name ∈ code ∧
        ((∃ before, before ⊆ code ∧ blocks[x]? =
            some ⟨before ++ [.test link.flag name], .branch link.flag link.next link.init⟩) ∨
          blocks[x]? = some (initBlock name link.next)) := by
  induction h with
  | last _ hlast =>
    obtain rfl := partOf_nil_iff.1 hx
    exact .inl ⟨_, List.Subset.refl _, hlast⟩
  | @split number before after name terminator link links _ hhead hinit _ ih =>
    have hcheck : Instr.check name ∈ before ++ .check name :: after :=
      List.mem_append_right _ List.mem_cons_self
    have hsub : after ⊆ before ++ .check name :: after := fun instr hinstr =>
      List.mem_append_right _ (List.mem_cons_of_mem _ hinstr)
    obtain rfl | rfl | hbehind := partOf_cons_iff.1 hx
    · exact .inr ⟨link, List.mem_cons_self, name, hcheck,
        .inl ⟨before, List.subset_append_left _ _, hhead⟩⟩
    · exact .inr ⟨link, List.mem_cons_self, name, hcheck, .inr hinit⟩
    · obtain ⟨rest, hrest, hblock⟩ | ⟨l, hl, other, hother, hblock⟩ := ih hbehind
      · exact .inl ⟨rest, fun _ hinstr => hsub (hrest hinstr), hblock⟩
      · refine .inr ⟨l, List.mem_cons_of_mem link hl, other, hsub hother, hblock.imp_left ?_⟩
        exact fun ⟨front, hfront, hblock⟩ => ⟨front, fun _ hinstr => hsub (hfront hinstr), hblock⟩

/-- Control leaves a chain only by the terminator that it ends in. -/
theorem Chain.of_target (h : Chain blocks number code terminator links)
    (hx : PartOf links number x) (hblock : blocks[x]? = some block)
    (htarget : target ∈ block.terminator.targets) :
    (∃ link ∈ links, target ∈ link.blocks) ∨ target ∈ terminator.targets := by
  obtain ⟨rest, -, hlast⟩ | ⟨link, hlink, name, -, ⟨before, -, hhead⟩ | hinit⟩ := h.block_of_part hx
  · obtain rfl := Option.some.inj (hblock.symm.trans hlast)
    exact .inr htarget
  · obtain rfl := Option.some.inj (hblock.symm.trans hhead)
    have hbranch := Terminator.mem_targets_branch_iff.1 htarget
    exact .inl ⟨link, hlink, by simpa [Link.blocks] using hbranch⟩
  · obtain rfl := Option.some.inj (hblock.symm.trans hinit)
    have hnext : target = link.next := List.mem_singleton.1 htarget
    exact .inl ⟨link, hlink, hnext ▸ List.mem_cons_self⟩

theorem Chain.exists_last (h : Chain body.blocks number code terminator links)
    (hx : PartOf links number x) (hreaches : body.graph.Reaches 0 x) :
    ∃ last block, body.graph.Reaches 0 last ∧ body.blocks[last]? = some block ∧
      block.terminator = terminator := by
  induction h generalizing x with
  | last _ hlast =>
    obtain rfl := partOf_nil_iff.1 hx
    exact ⟨x, _, hreaches, hlast, rfl⟩
  | @split number before after name terminator link links _ hhead hinit _ ih =>
    obtain rfl | rfl | hbehind := partOf_cons_iff.1 hx
    · have hedge : body.graph.Edge x link.next :=
        Body.edge_iff.2 ⟨_, hhead, Terminator.mem_targets_branch_iff.2 (.inl rfl)⟩
      exact ih (.inl rfl) (hreaches.step hedge)
    · have hedge : body.graph.Edge link.init link.next :=
        Body.edge_iff.2 ⟨_, hinit, List.mem_singleton_self _⟩
      exact ih (.inl rfl) (hreaches.step hedge)
    · exact ih hbehind hreaches

theorem Chains.exists_link_iff (h : Chains blocks 0 flag pending chains) :
    (∃ i < pending.length, ∃ link ∈ chains i, x ∈ link.blocks) ↔
      pending.length ≤ x ∧ x < pending.length + 2 * checkCount pending := by
  have hnumbers := h.numbers.mem_iff (a := x)
  rw [List.mem_range'_1, Nat.zero_add] at hnumbers
  rw [← hnumbers]
  simp only [List.mem_flatMap, List.mem_range]
  constructor
  · rintro ⟨i, hi, link, hlink, hx⟩
    exact ⟨link, ⟨i, hi, hlink⟩, hx⟩
  · rintro ⟨link, ⟨i, hi, hlink⟩, hx⟩
    exact ⟨i, hi, link, hlink, hx⟩

theorem Chains.exists_partOf (h : Chains blocks 0 flag pending chains)
    (hx : x < pending.length + 2 * checkCount pending) :
    ∃ i < pending.length, PartOf (chains i) i x := by
  rcases Nat.lt_or_ge x pending.length with hlt | hle
  · exact ⟨x, hlt, .inl rfl⟩
  · obtain ⟨i, hi, hlink⟩ := h.exists_link_iff.2 ⟨hle, hx⟩
    exact ⟨i, hi, .inr hlink⟩

theorem Chains.eq_of_partOf {i : Nat} (h : Chains blocks 0 flag pending chains)
    (hi : i < pending.length) (hpart : PartOf (chains i) i x) (hx : x < pending.length) :
    x = i := by
  obtain heq | hlink := hpart
  · exact heq
  · exact absurd (h.exists_link_iff.1 ⟨i, hi, hlink⟩).1 (Nat.not_le.2 hx)

end Expansion

namespace Body

open Expansion

variable {body : Body} {chains : Nat → List Link} {a b number target : Nat} {block : Block}

/-- The entry leads to the block if a target that names an appended block leads to the block that
this one is part of. -/
inductive Led (body : Body) (chains : Nat → List Link) : Nat → Prop
  | entry : Led body chains 0
  | step {a b target : Nat} : Led body chains a → body.graph.Edge a target →
      b < body.blocks.length → PartOf (chains b) b target → Led body chains b

theorem length_blocks_expand (body : Body) :
    body.expand.blocks.length = body.blocks.length + 2 * checkCount body.blocks :=
  (List.length_map _).trans (length_expandFrom 0 body.vars.length body.blocks)

theorem led_of_reaches (hreaches : body.graph.Reaches 0 b) (hb : b < body.blocks.length) :
    body.Led chains b := by
  obtain ⟨blocks, hpath⟩ := hreaches
  revert hb
  refine hpath.induct_back (motive := fun _ b => b < body.blocks.length → body.Led chains b)
    (fun _ => .entry) fun front source target _ ih hedge htarget => ?_
  have hsource : source < body.blocks.length := body.size_graph ▸ hedge.source_lt_size
  exact .step (ih hsource) hedge htarget (.inl rfl)

section Chains

variable (hchains : Chains body.expand.blocks 0 body.vars.length body.blocks chains)

include hchains

private theorem chain_of_getElem? (hblock : body.blocks[number]? = some block) :
    Chain body.expand.blocks number block.code block.terminator (chains number) := by
  have hchain := hchains.chain number block hblock
  rwa [Nat.zero_add] at hchain

theorem exists_led_of_reaches (hreaches : body.expand.graph.Reaches 0 number)
    (hnumber : number < body.expand.blocks.length) :
    ∃ b < body.blocks.length, body.Led chains b ∧ PartOf (chains b) b number := by
  revert hnumber
  obtain ⟨blocks, hpath⟩ := hreaches
  refine hpath.induct_back (motive := fun _ number => number < body.expand.blocks.length →
    ∃ b < body.blocks.length, body.Led chains b ∧ PartOf (chains b) b number) ?_ ?_
  · intro hsize
    rw [length_blocks_expand] at hsize
    obtain ⟨b, hb, -⟩ := hchains.exists_partOf hsize
    exact ⟨0, Nat.lt_of_le_of_lt (Nat.zero_le b) hb, .entry, .inl rfl⟩
  · intro front source target _ ih hedge htarget
    have hsource : source < body.expand.blocks.length :=
      body.expand.size_graph ▸ hedge.source_lt_size
    obtain ⟨b, hb, hled, hpart⟩ := ih hsource
    obtain ⟨found, hfound, hmem⟩ := edge_iff.1 hedge
    have hblock : body.blocks[b]? = some body.blocks[b] := List.getElem?_eq_getElem hb
    obtain hlink | hout := (chain_of_getElem? hchains hblock).of_target hpart hfound hmem
    · exact ⟨b, hb, hled, .inr hlink⟩
    · rw [length_blocks_expand] at htarget
      obtain ⟨c, hc, hpart⟩ := hchains.exists_partOf htarget
      exact ⟨c, hc, .step hled (edge_iff.2 ⟨_, hblock, hout⟩) hc hpart, hpart⟩

theorem Led.exists_edge (hled : body.Led chains a) (hedge : body.graph.Edge a target) :
    ∃ last, body.expand.graph.Reaches 0 last ∧ body.expand.graph.Edge last target := by
  induction hled generalizing target with
  | entry =>
    obtain ⟨block, hblock, htarget⟩ := edge_iff.1 hedge
    obtain ⟨last, found, hreaches, hfound, heq⟩ :=
      (chain_of_getElem? hchains hblock).exists_last (.inl rfl) (.refl body.expand.graph 0)
    exact ⟨last, hreaches, edge_iff.2 ⟨found, hfound, heq ▸ htarget⟩⟩
  | step _ hbefore _ hpart ih =>
    obtain ⟨block, hblock, htarget⟩ := edge_iff.1 hedge
    obtain ⟨source, hsource, henter⟩ := ih hbefore
    obtain ⟨last, found, hreaches, hfound, heq⟩ :=
      (chain_of_getElem? hchains hblock).exists_last hpart (hsource.step henter)
    exact ⟨last, hreaches, edge_iff.2 ⟨found, hfound, heq ▸ htarget⟩⟩

theorem reversePostorder?_expand_iff_led : body.expand.graph.reversePostorder? = none ↔
    ∃ a target, body.Led chains a ∧ body.graph.Edge a target ∧
      body.blocks.length + 2 * checkCount body.blocks ≤ target := by
  rw [Graph.reversePostorder?_eq_none_iff, Graph.not_closedFromEntry_iff, size_graph,
    length_blocks_expand]
  constructor
  · rintro ⟨blocks, a, target, hpath, -, hedge, hle⟩
    have ha : a < body.expand.blocks.length := body.expand.size_graph ▸ hedge.source_lt_size
    obtain ⟨b, hb, hled, hpart⟩ := exists_led_of_reaches hchains ⟨blocks, hpath⟩ ha
    obtain ⟨found, hfound, hmem⟩ := edge_iff.1 hedge
    have hblock : body.blocks[b]? = some body.blocks[b] := List.getElem?_eq_getElem hb
    obtain hlink | hout := (chain_of_getElem? hchains hblock).of_target hpart hfound hmem
    · exact absurd (hchains.exists_link_iff.1 ⟨b, hb, hlink⟩).2 (Nat.not_lt.2 hle)
    · exact ⟨b, target, hled, edge_iff.2 ⟨_, hblock, hout⟩, hle⟩
  · rintro ⟨a, target, hled, hedge, hle⟩
    obtain ⟨last, ⟨blocks, hpath⟩, hlast⟩ := hled.exists_edge hchains hedge
    have hbound := hpath.forall_lt_size hlast
    rw [size_graph, length_blocks_expand] at hbound
    exact ⟨blocks, last, target, hpath, hbound, hlast, hle⟩

theorem Led.reaches (hled : body.Led chains b) (hclosed : body.graph.ClosedFromEntry) :
    body.graph.Reaches 0 b := by
  induction hled with
  | entry => exact .refl body.graph 0
  | step _ hedge hb hpart ih =>
    have htarget := body.size_graph ▸ hclosed _ _ ih hedge
    exact hchains.eq_of_partOf hb hpart htarget ▸ ih.step hedge

end Chains

/-- Where no target of a block reached dangles, all that the expansion reaches is part of a block
that the body reaches. -/
theorem exists_part_of_reaches (hclosed : body.graph.ClosedFromEntry)
    (hreaches : body.expand.graph.Reaches 0 number) (hnumber : number < body.expand.blocks.length) :
    ∃ b block links, body.graph.Reaches 0 b ∧ body.blocks[b]? = some block ∧
      Chain body.expand.blocks b block.code block.terminator links ∧
      PartOf links b number := by
  obtain ⟨chains, hchains⟩ := body.exists_chains
  obtain ⟨b, hb, hled, hpart⟩ := exists_led_of_reaches hchains hreaches hnumber
  have hblock : body.blocks[b]? = some body.blocks[b] := List.getElem?_eq_getElem hb
  exact ⟨b, _, chains b, hled.reaches hchains hclosed, hblock, chain_of_getElem? hchains hblock,
    hpart⟩

theorem reversePostorder?_of_expand (h : body.expand.graph.reversePostorder? = none) :
    body.graph.reversePostorder? = none := by
  obtain ⟨chains, hchains⟩ := body.exists_chains
  obtain ⟨a, target, hled, hedge, hle⟩ := (reversePostorder?_expand_iff_led hchains).1 h
  refine Graph.reversePostorder?_eq_none_iff.2 fun hclosed => ?_
  have htarget := body.size_graph ▸ hclosed a target (hled.reaches hchains hclosed) hedge
  omega

theorem reversePostorder?_expand_of_reaches (hreaches : body.graph.Reaches 0 a)
    (hedge : body.graph.Edge a target)
    (hle : body.blocks.length + 2 * checkCount body.blocks ≤ target) :
    body.expand.graph.reversePostorder? = none := by
  obtain ⟨chains, hchains⟩ := body.exists_chains
  have ha : a < body.blocks.length := body.size_graph ▸ hedge.source_lt_size
  exact (reversePostorder?_expand_iff_led hchains).2
    ⟨a, target, led_of_reaches hreaches ha, hedge, hle⟩

/-- Expansion appends two blocks for each check, and these are the numbers that name no block before
and name one afterwards. The traversal fails after expansion exactly if a block has a target beyond
all these to which the entry leads when a target that names an appended block leads to the block
that this one is part of. Then it failed before; and if it failed before but does not afterwards,
some block reached has a target that names an appended block. -/
theorem reversePostorder?_expand_eq_none_iff (body : Body) :
    body.expand.blocks.length = body.blocks.length + 2 * checkCount body.blocks ∧
    (∃ chains, Chains body.expand.blocks 0 body.vars.length body.blocks chains ∧
      (body.expand.graph.reversePostorder? = none ↔
        ∃ a target, body.Led chains a ∧ body.graph.Edge a target ∧
          body.expand.blocks.length ≤ target)) ∧
    (body.expand.graph.reversePostorder? = none → body.graph.reversePostorder? = none) ∧
    ((body.expand.graph.reversePostorder? = none ↔ body.graph.reversePostorder? = none) ∨
      ∃ a target, body.graph.Reaches 0 a ∧ body.graph.Edge a target ∧
        body.blocks.length ≤ target ∧ target < body.expand.blocks.length) := by
  have hlength := body.length_blocks_expand
  obtain ⟨chains, hchains⟩ := body.exists_chains
  refine ⟨hlength, ⟨chains, hchains, hlength ▸ reversePostorder?_expand_iff_led hchains⟩,
    reversePostorder?_of_expand, ?_⟩
  by_cases hlost : body.graph.reversePostorder? = none ∧
      body.expand.graph.reversePostorder? ≠ none
  · right
    obtain ⟨hbefore, hafter⟩ := hlost
    rw [Graph.reversePostorder?_eq_none_iff, Graph.not_closedFromEntry_iff, size_graph] at hbefore
    obtain ⟨blocks, a, target, hpath, -, hedge, hle⟩ := hbefore
    refine ⟨a, target, ⟨blocks, hpath⟩, hedge, hle, ?_⟩
    by_contra hbeyond
    exact hafter (reversePostorder?_expand_of_reaches ⟨blocks, hpath⟩ hedge
      (hlength ▸ Nat.not_lt.1 hbeyond))
  · left
    refine ⟨reversePostorder?_of_expand, fun hbefore => ?_⟩
    by_contra hafter
    exact hlost ⟨hbefore, hafter⟩

def danglingJump : Body := ⟨[⟨some (.primitive .boolean), none⟩], [⟨[.check "a"], .jump 1⟩]⟩

theorem danglingJump_redirected : ¬ (danglingJump.expand.graph.reversePostorder? = none ↔
    danglingJump.graph.reversePostorder? = none) := by
  have hbefore : danglingJump.graph.reversePostorder? = none := by cbv
  have hafter : danglingJump.expand.graph.reversePostorder? = some [0, 2, 1] := by cbv
  rw [hbefore, hafter]
  decide

end Body

end MethodLowering
