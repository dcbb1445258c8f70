import Mathlib.Algebra.Order.Group.Nat
import MethodLowering.Flow.Dominator

/-!
Ancestors along falling links, and how two positions are lifted until they meet. A table of
candidates is read as a partial function from positions to positions, whose links lead toward
position 0; the positions met on the way are the ancestors, and they form a chain. In a table whose
candidates lie in front of their positions the later of two positions can be lifted again and again,
and what lies on the ways from both stays the same, so they meet at the last position on both ways.
Two cursors that are lowered in turn, each as long as it is behind the other, come to the same
position.
-/

set_option autoImplicit false
set_option relaxedAutoImplicit false

namespace MethodLowering

/-! ### Ancestors -/

abbrev Links := Nat → Option Nat

namespace Links

/-- `a` is met on the way from `b`, itself included, as long as the links fall. -/
inductive Above (link : Links) (a : Nat) : Nat → Prop
  | refl : Above link a a
  | up {b c : Nat} : link b = some c → c < b → Above link a c → Above link a b

/-- Every link leads down to a linked position, and the root is its own. -/
structure Rooted (link : Links) (size : Nat) : Prop where
  root : link 0 = some 0
  bound : ∀ i c, link i = some c → i < size
  falls : ∀ i c, 0 < i → link i = some c → c < i
  linked : ∀ i c, link i = some c → (link c).isSome

variable {link new old : Links} {size a b c i x : Nat}

theorem Above.le (h : Above link a b) : a ≤ b := by
  induction h with
  | refl => exact Nat.le_refl a
  | up _ hlt _ ih => omega

theorem Above.trans (hab : Above link a b) (hbc : Above link b c) : Above link a c := by
  induction hbc with
  | refl => exact hab
  | up hlink hlt _ ih => exact .up hlink hlt ih

theorem Above.of_ne (h : Above link a b) (hne : a ≠ b) (hlink : link b = some c) :
    Above link a c := by
  cases h with
  | refl => exact absurd rfl hne
  | up hfound _ hup =>
    rw [hlink, Option.some.injEq] at hfound
    exact hfound ▸ hup

theorem above_zero_iff : Above link a 0 ↔ a = 0 := by
  constructor
  · intro h
    exact Nat.le_zero.1 h.le
  · rintro rfl
    exact .refl

theorem Above.congr (h : Above old a b) (hagree : ∀ k ≤ b, new k = old k) : Above new a b := by
  induction h with
  | refl => exact .refl
  | up hlink hlt _ ih =>
    exact .up ((hagree _ (Nat.le_refl _)).trans hlink) hlt (ih fun k hk => hagree k (by omega))

theorem Rooted.above (h : Rooted link size) (hlink : link i = some c) : Above link c i := by
  rcases Nat.eq_zero_or_pos i with rfl | hpos
  · rw [h.root, Option.some.injEq] at hlink
    exact hlink ▸ .refl
  · exact .up hlink (h.falls i c hpos hlink) .refl

theorem Rooted.isSome_of_above (h : Rooted link size) (hb : (link b).isSome)
    (hab : Above link a b) : (link a).isSome := by
  induction hab with
  | refl => exact hb
  | up hlink _ _ ih => exact ih (h.linked _ _ hlink)

/-- The links of `new` below `i` and those of `old` from `i` on. -/
def splice (new old : Links) (i : Nat) : Links := fun k => if k < i then new k else old k

theorem splice_of_lt (h : a < i) : splice new old i a = new a := if_pos h

theorem splice_of_le (h : i ≤ a) : splice new old i a = old a := if_neg (Nat.not_lt.2 h)

theorem splice_self (link : Links) (i : Nat) : splice link link i = link :=
  funext fun _ => ite_self _

theorem splice_eq_old (h : ∀ k < i, new k = old k) : splice new old i = old := by
  funext k
  unfold splice
  split
  · exact h k ‹k < i›
  · rfl

theorem splice_congr_old {other : Links} (h : ∀ k, i ≤ k → old k = other k) :
    splice new old i = splice new other i := by
  funext k
  unfold splice
  split
  · rfl
  · exact h k (Nat.not_lt.1 ‹¬ k < i›)

theorem above_splice_iff (h : b < i) : Above (splice new old i) a b ↔ Above new a b := by
  constructor
  · exact fun hab => hab.congr fun k hk => (splice_of_lt (by omega)).symm
  · exact fun hab => hab.congr fun k hk => splice_of_lt (by omega)

end Links

/-! ### Candidates as links -/

namespace DominatorTable

open Links

variable {table : DominatorTable} {size a b c i x : Nat} {candidate : Option Nat}

/-- The candidates of a table, read as links. -/
def link (table : DominatorTable) : Links := fun i => table[i]?.join

theorem link_eq_some_iff {i c : Nat} : table.link i = some c ↔ table[i]? = some (some c) :=
  Option.join_eq_some_iff

theorem link_of_size_le {i : Nat} (h : table.size ≤ i) : table.link i = none := by
  rw [link, Array.getElem?_eq_none h]
  rfl

theorem lt_size_of_isSome (h : (table.link i).isSome) : i < table.size := by
  by_contra hi
  rw [link_of_size_le (Nat.not_lt.1 hi)] at h
  exact absurd h nofun

/-- Every candidate lies in front of its position, that of the entry apart. -/
def Falls (table : DominatorTable) : Prop :=
  ∀ i c, 0 < i → table.link i = some c → c < i

/-- Every position on the way from a position has a candidate. -/
def Chained (table : DominatorTable) (i : Nat) : Prop :=
  ∀ x, Above table.link x i → (table.link x).isSome

/-- The candidates of a table, read as links, where unknown ones lead to the entry. -/
def filled (table : DominatorTable) : Links := fun i =>
  (table[i]?).map fun candidate => candidate.getD 0

theorem filled_eq_of_link (h : table.link i = some c) : table.filled i = some c := by
  rw [filled, link_eq_some_iff.1 h]
  rfl

theorem Falls.getD_lt (hfalls : table.Falls) (hi : 0 < i)
    (hcandidate : table[i]? = some candidate) : candidate.getD 0 < i := by
  cases candidate with
  | none => exact hi
  | some c => exact hfalls i c hi (link_eq_some_iff.2 hcandidate)

theorem nearestCommon_self (table : DominatorTable) (a : Nat) :
    table.nearestCommon a a = some a := by
  rw [nearestCommon, if_pos rfl]

theorem nearestCommon_comm (table : DominatorTable) (a b : Nat) :
    table.nearestCommon a b = table.nearestCommon b a := by
  by_cases hab : a = b
  · rw [hab]
  · rw [nearestCommon, nearestCommon, if_neg hab, if_neg (Ne.symm hab), max_comm, min_comm]

theorem nearestCommon_of_lt (hfalls : table.Falls) (hlt : b < a)
    (hcandidate : table[a]? = some candidate) :
    table.nearestCommon a b = table.nearestCommon (candidate.getD 0) b := by
  have hlower : candidate.getD 0 < a := hfalls.getD_lt (Nat.zero_lt_of_lt hlt) hcandidate
  rw [nearestCommon, if_neg (Nat.ne_of_gt hlt), max_eq_left (Nat.le_of_lt hlt),
    min_eq_right (Nat.le_of_lt hlt), hcandidate]
  exact if_pos hlower

/-! ### The meeting point -/

theorem above_filled_of_lt (hfalls : table.Falls) (hlt : b < a)
    (hcandidate : table[a]? = some candidate) :
    Above table.filled x a ∧ Above table.filled x b ↔
      Above table.filled x (candidate.getD 0) ∧ Above table.filled x b := by
  have hlink : table.filled a = some (candidate.getD 0) := by
    rw [filled, hcandidate, Option.map_some]
  have hlower : candidate.getD 0 < a := hfalls.getD_lt (Nat.zero_lt_of_lt hlt) hcandidate
  constructor
  · rintro ⟨ha, hb⟩
    have hle : x ≤ b := hb.le
    exact ⟨ha.of_ne (by omega) hlink, hb⟩
  · rintro ⟨hc, hb⟩
    exact ⟨.up hlink hlower hc, hb⟩

/-- Any two positions of a table whose candidates fall meet, at the last position on both ways. -/
theorem nearestCommon_eq_some (hfalls : table.Falls) (ha : a < table.size) (hb : b < table.size) :
    ∃ c, table.nearestCommon a b = some c ∧
      ∀ x, Above table.filled x c ↔ Above table.filled x a ∧ Above table.filled x b := by
  induction hsum : a + b using Nat.strongRecOn generalizing a b with
  | ind n ih =>
    -- what happens when the first position is the later one, stated for both orders
    have hlift : ∀ {p q : Nat}, p + q = n → q < p → p < table.size → q < table.size →
        ∃ c, table.nearestCommon p q = some c ∧
          ∀ x, Above table.filled x c ↔ Above table.filled x p ∧ Above table.filled x q := by
      intro p q hpq hlt hp hq
      have hcandidate : table[p]? = some table[p] := Array.getElem?_eq_getElem hp
      have hlower : table[p].getD 0 < p := hfalls.getD_lt (Nat.zero_lt_of_lt hlt) hcandidate
      obtain ⟨c, hc, habove⟩ :=
        ih (table[p].getD 0 + q) (by omega) (Nat.lt_trans hlower hp) hq rfl
      refine ⟨c, (nearestCommon_of_lt hfalls hlt hcandidate).trans hc, fun x => ?_⟩
      rw [habove, above_filled_of_lt hfalls hlt hcandidate]
    obtain hlt | rfl | hlt := Nat.lt_trichotomy b a
    · exact hlift hsum hlt ha hb
    · exact ⟨b, nearestCommon_self table b, fun x => (and_self _).symm ▸ Iff.rfl⟩
    · obtain ⟨c, hc, habove⟩ := hlift ((Nat.add_comm b a).trans hsum) hlt hb ha
      exact ⟨c, (nearestCommon_comm table a b).trans hc, fun x => (habove x).trans and_comm⟩

theorem Chained.of_above (h : table.Chained i) (habove : Above table.link a i) :
    table.Chained a := fun x hx => h x (hx.trans habove)

theorem above_filled_iff (h : table.Chained i) :
    Above table.filled x i ↔ Above table.link x i := by
  constructor
  · intro habove
    induction habove with
    | refl => exact .refl
    | @up i c hfilled hlt _ ih =>
      obtain ⟨d, hlink⟩ := Option.isSome_iff_exists.1 (h i .refl)
      obtain rfl : d = c := Option.some.inj ((filled_eq_of_link hlink).symm.trans hfilled)
      exact .up hlink hlt (ih (h.of_above (.up hlink hlt .refl)))
  · intro habove
    induction habove with
    | refl => exact .refl
    | up hlink hlt _ ih =>
      exact .up (filled_eq_of_link hlink) hlt (ih (h.of_above (.up hlink hlt .refl)))

theorem nearestCommon_of_chained (hfalls : table.Falls) (ha : table.Chained a)
    (hb : table.Chained b) :
    ∃ c, table.nearestCommon a b = some c ∧
      ∀ x, Above table.link x c ↔ Above table.link x a ∧ Above table.link x b := by
  obtain ⟨c, hc, habove⟩ := nearestCommon_eq_some hfalls (lt_size_of_isSome (ha a .refl))
    (lt_size_of_isSome (hb b .refl))
  have hchained : table.Chained c :=
    ha.of_above ((above_filled_iff ha).1 ((habove c).1 .refl).1)
  refine ⟨c, hc, fun x => ?_⟩
  rw [← above_filled_iff hchained, habove, above_filled_iff ha, above_filled_iff hb]

theorem chained_of_linked (hrooted : Rooted table.link size) (hi : (table.link i).isSome) :
    table.Chained i := fun _ hx => hrooted.isSome_of_above hi hx

theorem nearestCommon_of_linked (hrooted : Rooted table.link size) {a b : Nat}
    (ha : (table.link a).isSome) (hb : (table.link b).isSome) :
    ∃ c, table.nearestCommon a b = some c ∧
      ∀ x, Above table.link x c ↔ Above table.link x a ∧ Above table.link x b :=
  nearestCommon_of_chained hrooted.falls (chained_of_linked hrooted ha)
    (chained_of_linked hrooted hb)

/-! ### The loops -/

/-- A cursor follows the candidates, unknown ones to the entry, as long as it is behind the bound:
it starts at one position and ends at another. Every position that it leaves is in the table. -/
inductive Lowers (table : DominatorTable) (bound : Nat) : Nat → Nat → Prop
  | rest {i : Nat} : i ≤ bound → Lowers table bound i i
  | move {i c : Nat} {candidate : Option Nat} : bound < i → table[i]? = some candidate →
      Lowers table bound (candidate.getD 0) c → Lowers table bound i c

/-- Two cursors that differ are lowered in turn, first one and then the other, until they agree. -/
inductive Joins (table : DominatorTable) : Nat → Nat → Nat → Prop
  | meet (a : Nat) : Joins table a a a
  | round {a b a' b' c : Nat} : a ≠ b → Lowers table b a a' → Lowers table a' b b' →
      Joins table a' b' c → Joins table a b c

theorem Lowers.nearestCommon_eq (hfalls : table.Falls) (h : table.Lowers b a c) :
    table.nearestCommon a b = table.nearestCommon c b := by
  induction h with
  | rest => rfl
  | move hlt hcandidate _ ih => exact (nearestCommon_of_lt hfalls hlt hcandidate).trans ih

theorem Joins.nearestCommon_eq (hfalls : table.Falls) (h : table.Joins a b c) :
    table.nearestCommon a b = some c := by
  induction h with
  | meet a => exact nearestCommon_self table a
  | @round a b a' b' c _ hfirst hsecond _ ih =>
    calc table.nearestCommon a b = table.nearestCommon a' b := hfirst.nearestCommon_eq hfalls
      _ = table.nearestCommon b a' := nearestCommon_comm table a' b
      _ = table.nearestCommon b' a' := hsecond.nearestCommon_eq hfalls
      _ = table.nearestCommon a' b' := nearestCommon_comm table b' a'
      _ = some c := ih

theorem exists_lowers (hfalls : table.Falls) (bound : Nat) (hi : i < table.size) :
    ∃ c, table.Lowers bound i c ∧ c ≤ i ∧ (bound < i → c < i) := by
  induction i using Nat.strongRecOn with
  | ind i ih =>
    obtain hlt | hle := Nat.lt_or_ge bound i
    · have hcandidate : table[i]? = some table[i] := Array.getElem?_eq_getElem hi
      have hlower : table[i].getD 0 < i := hfalls.getD_lt (Nat.zero_lt_of_lt hlt) hcandidate
      obtain ⟨c, hc, hle, -⟩ := ih (table[i].getD 0) hlower (Nat.lt_trans hlower hi)
      exact ⟨c, .move hlt hcandidate hc, by omega, fun _ => by omega⟩
    · exact ⟨i, .rest hle, Nat.le_refl i, fun hlt => absurd hlt (Nat.not_lt.2 hle)⟩

/-- Each round lowers one of the cursors, so the rounds end. -/
theorem exists_joins (hfalls : table.Falls) (ha : a < table.size) (hb : b < table.size) :
    ∃ c, table.Joins a b c := by
  induction hsum : a + b using Nat.strongRecOn generalizing a b with
  | ind n ih =>
    by_cases hab : a = b
    · exact ⟨a, hab ▸ .meet a⟩
    · obtain ⟨a', hfirst, hale, halt⟩ := exists_lowers hfalls b ha
      obtain ⟨b', hsecond, hble, hblt⟩ := exists_lowers hfalls a' hb
      have hlower : a' + b' < n := by
        obtain hlt | hlt := Nat.lt_or_gt_of_ne hab
        · have := hblt (by omega)
          omega
        · have := halt hlt
          omega
      obtain ⟨c, hc⟩ := ih (a' + b') hlower (by omega) (by omega) rfl
      exact ⟨c, .round hab hfirst hsecond hc⟩

theorem joins_iff (hfalls : table.Falls) (ha : a < table.size) (hb : b < table.size) :
    table.Joins a b c ↔ table.nearestCommon a b = some c := by
  constructor
  · exact Joins.nearestCommon_eq hfalls
  · intro hc
    obtain ⟨d, hd⟩ := exists_joins hfalls ha hb
    rw [hd.nearestCommon_eq hfalls, Option.some.injEq] at hc
    exact hc ▸ hd

end DominatorTable

end MethodLowering
