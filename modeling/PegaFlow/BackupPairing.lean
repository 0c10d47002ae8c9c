/-
PegaFlow/BackupPairing.lean

Which targets back up which sources (`pairing` in the MetaServer's `backup.rs`).

The smaller side are bins with room for `ceil(larger / smaller)` nodes of the larger side.  Each
node of the larger side, in the order of their names, goes to its highest-scoring bin with room;
then an empty bin takes the best-scoring node of the fullest bin, as long as that has more than one.
The scores are rendezvous hashes of the two names and stay open here.
-/
import Mathlib.Algebra.BigOperators.Ring.Finset
import Mathlib.Algebra.Order.BigOperators.Group.Finset
import Mathlib.Data.List.GetD
import PegaFlow.Loops

namespace PegaFlow.Backup

open Function

open Finset

open List hiding range mem_range mem_filter mem_singleton mem_singleton_self sum_le_sum sum_lt_sum

/-- `max_by_key`: the last of the best elements.  `ge a b` says that the key of `a` is at least
that of `b`. -/
def maxBy {α : Type*} (ge : α → α → Bool) (l : List α) : Option α :=
  l.foldl (fun best x =>
    match best with
    | none => some x
    | some b => if ge x b then some x else some b) none

/-! ### Assignment to bins -/

/-- The nodes in each bin. -/
abbrev Assigned := ℕ → List ℕ

/-- Each item goes to its highest-scoring bin with room. -/
def assignItems (score : ℕ → ℕ → ℕ) (bins capacity : ℕ) :
    List ℕ → Assigned → Option Assigned
  | [], assigned => some assigned
  | item :: items, assigned =>
    let ranked := (List.range bins).insertionSort fun a b => score item b ≤ score item a
    match ranked.find? fun bin => (assigned bin).length < capacity with
    | none => none
    | some bin =>
      assignItems score bins capacity items (update assigned bin (assigned bin ++ [item]))

/-- The bin with the most items; the first one among equals. -/
def fullest (bins : ℕ) (assigned : Assigned) : Option ℕ :=
  maxBy (fun a b => (assigned b).length < (assigned a).length ||
    ((assigned b).length = (assigned a).length && a ≤ b)) (List.range bins)

/-- The place of the item that scores best for the bin. -/
def bestPlace (score : ℕ → ℕ → ℕ) (bin : ℕ) (members : List ℕ) : Option ℕ :=
  maxBy (fun p q => score (members.getD q 0) bin ≤ score (members.getD p 0) bin)
    (List.range members.length)

/-- The item at `place` moves from `donor` to `empty`. -/
def move (assigned : Assigned) (empty donor place : ℕ) : Assigned :=
  let item := (assigned donor).getD place 0
  let assigned := update assigned donor ((assigned donor).eraseIdx place)
  update assigned empty (assigned empty ++ [item])

/-- The loop that fills empty bins.  Every turn fills one, so there are at most `bins` turns. -/
def fillEmpty (score : ℕ → ℕ → ℕ) (bins : ℕ) : ℕ → Assigned → Option Assigned
  | 0, assigned => some assigned
  | fuel + 1, assigned =>
    match (List.range bins).find? fun bin => (assigned bin).isEmpty with
    | none => some assigned
    | some empty =>
      match fullest bins assigned with
      | none => none
      | some donor =>
        if (assigned donor).length ≤ 1 then some assigned
        else
          match bestPlace score empty (assigned donor) with
          | none => none
          | some place => fillEmpty score bins fuel (move assigned empty donor place)

/-! ### Pairs -/

section Pairing

variable {N : Type} [LinearOrder N]

variable (nodeScore : N → N → ℕ) (sourcesAreBins : Bool) (bins items : List N)

/-- `score` of two indices; the rendezvous score is that of the source and the target. -/
def scoreAt (item bin : ℕ) : ℕ :=
  match items[item]?, bins[bin]? with
  | some x, some b => if sourcesAreBins then nodeScore b x else nodeScore x b
  | _, _ => 0

def pairAt (bin item : ℕ) : Option (N × N) :=
  match bins[bin]?, items[item]? with
  | some b, some x => some (if sourcesAreBins then (b, x) else (x, b))
  | _, _ => none

/-- Indices in the order of the names. -/
def sortedItems (items : List N) : List ℕ :=
  (List.range items.length).insertionSort fun a b =>
    (match items[a]?, items[b]? with
    | some x, some y => decide (x ≤ y)
    | _, _ => true) = true

/-- Pairs of the bins and their members, sorted. -/
def pairsOf (assigned : Assigned) : List (N × N) :=
  ((List.range bins.length).flatMap fun bin =>
    (assigned bin).filterMap fun item => pairAt sourcesAreBins bins items bin item).insertionSort
      fun p q => p.1 < q.1 ∨ (p.1 = q.1 ∧ p.2 ≤ q.2)

def pairInto : Option (List (N × N)) :=
  let score := scoreAt nodeScore sourcesAreBins bins items
  -- `items.len().div_ceil(bins.len())`
  let capacity := (items.length + bins.length - 1) / bins.length
  (assignItems score bins.length capacity (sortedItems items) fun _ => []).bind fun assigned =>
    (fillEmpty score bins.length bins.length assigned).map (pairsOf sourcesAreBins bins items)

def pairing (sources targets : List N) : Option (List (N × N)) :=
  if sources.isEmpty || targets.isEmpty then some []
  else if sources.length ≤ targets.length then pairInto nodeScore true sources targets
  else pairInto nodeScore false targets sources

end Pairing

/-! ### The best element -/

theorem maxBy_concat {α : Type*} (ge : α → α → Bool) (l : List α) (x : α) :
    maxBy ge (l ++ [x]) = match maxBy ge l with
      | none => some x
      | some b => if ge x b then some x else some b := by
  unfold maxBy
  rw [foldl_append]
  rfl

theorem exists_maxBy {α κ : Type*} [Preorder κ] (ge : α → α → Bool) (f : α → κ)
    (hge : ∀ a b, ge a b → f b ≤ f a) (hlt : ∀ a b, ge a b = false → f a ≤ f b) {l : List α}
    (hl : l ≠ []) : ∃ m ∈ l, maxBy ge l = some m ∧ ∀ x ∈ l, f x ≤ f m := by
  induction l using reverseRecOn with
  | nil => exact absurd rfl hl
  | append_singleton l x ih =>
    rcases eq_or_ne l [] with rfl | hne
    · refine ⟨x, List.mem_singleton_self x, rfl, fun y hy => ?_⟩
      rw [List.mem_singleton.mp hy]
    obtain ⟨m, hm, hmax, hle⟩ := ih hne
    rw [maxBy_concat, hmax]
    cases hx : ge x m with
    | true =>
      refine ⟨x, mem_append_right l (List.mem_singleton_self x), if_pos hx, ?_⟩
      intro y hy
      rcases mem_append.mp hy with hy | hy
      · exact (hle y hy).trans (hge x m hx)
      · rw [List.mem_singleton.mp hy]
    | false =>
      refine ⟨m, mem_append_left _ hm, if_neg (by rw [hx]; exact Bool.false_ne_true), ?_⟩
      intro y hy
      rcases mem_append.mp hy with hy | hy
      · exact hle y hy
      · rw [List.mem_singleton.mp hy]
        exact hlt x m hx

/-! ### Every item in some bin -/

variable {bin : ℕ}

/-- The bins together hold the items. -/
def Spread (bins : ℕ) (items : List ℕ) (assigned : Assigned) : Prop :=
  ((List.range bins).flatMap assigned).Perm items

section Spread

variable {bins : ℕ} {items : List ℕ} {assigned : Assigned}

theorem Spread.sum (h : Spread bins items assigned) :
    ∑ bin ∈ range bins, (assigned bin).length = items.length := by
  rw [← h.length_eq, length_flatMap]
  rfl

theorem Spread.mem_iff (h : Spread bins items assigned) {item : ℕ} :
    item ∈ items ↔ ∃ bin < bins, item ∈ assigned bin := by
  rw [← List.Perm.mem_iff h, mem_flatMap]
  simp only [List.mem_range]

theorem spread_iff_count : Spread bins items assigned ↔
    ∀ item, ∑ bin ∈ range bins, (assigned bin).count item = items.count item := by
  rw [Spread, perm_iff_count]
  simp only [count_flatMap]
  rfl

theorem sum_update_bin (f : List ℕ → ℕ) (assigned : Assigned) (hbin : bin < bins)
    (members : List ℕ) :
    ∑ b ∈ range bins, f (update assigned bin members b) + f (assigned bin) =
      ∑ b ∈ range bins, f (assigned b) + f members := by
  have hcomp : (fun b => f (update assigned bin members b)) =
      update (fun b => f (assigned b)) bin (f members) := comp_update f assigned bin members
  rw [hcomp, sum_update_of_mem (mem_range.mpr hbin),
    sum_eq_add_sum_sdiff_singleton_of_mem (mem_range.mpr hbin) fun b => f (assigned b)]
  omega

variable {capacity : ℕ}

theorem exists_room (hsum : ∑ b ∈ range bins, (assigned b).length < bins * capacity) :
    ∃ bin < bins, (assigned bin).length < capacity := by
  by_contra hfull
  push Not at hfull
  have hle : ∑ _b ∈ range bins, capacity ≤ ∑ b ∈ range bins, (assigned b).length :=
    sum_le_sum fun b hb => hfull b (mem_range.mp hb)
  rw [sum_const, card_range, Nat.nsmul_eq_mul] at hle
  omega

theorem Spread.append (h : Spread bins items assigned) (hbin : bin < bins) (item : ℕ) :
    Spread bins (items ++ [item]) (update assigned bin (assigned bin ++ [item])) := by
  rw [spread_iff_count] at h ⊢
  intro x
  have hsum := sum_update_bin (List.count x) assigned hbin (assigned bin ++ [item])
  rw [h x, count_append] at hsum
  rw [count_append]
  omega

theorem exists_assignItems (score : ℕ → ℕ → ℕ) (h : Spread bins items assigned)
    (hcap : ∀ bin, (assigned bin).length ≤ capacity) (rest : List ℕ)
    (hroom : items.length + rest.length ≤ bins * capacity) :
    ∃ assigned', assignItems score bins capacity rest assigned = some assigned' ∧
      Spread bins (items ++ rest) assigned' ∧ ∀ bin, (assigned' bin).length ≤ capacity := by
  induction rest generalizing items assigned with
  | nil => exact ⟨assigned, rfl, by rwa [append_nil], hcap⟩
  | cons item rest ih =>
    rw [length_cons] at hroom
    have hsum : ∑ b ∈ range bins, (assigned b).length < bins * capacity := by
      rw [h.sum]
      omega
    obtain ⟨bin, hbin, hlt⟩ := exists_room hsum
    rw [assignItems]
    cases hfind : ((List.range bins).insertionSort fun a b => score item b ≤ score item a).find?
        fun bin => (assigned bin).length < capacity with
    | none =>
      have hfull := find?_eq_none.mp hfind bin
        ((List.mem_insertionSort _).mpr (List.mem_range.mpr hbin))
      exact absurd (decide_eq_true hlt) hfull
    | some b =>
      have hb : b < bins :=
        List.mem_range.mp ((List.mem_insertionSort _).mp (mem_of_find?_eq_some hfind))
      have hlt : (assigned b).length < capacity := of_decide_eq_true
        (find?_some (p := fun bin => decide ((assigned bin).length < capacity)) hfind)
      have hcap' : ∀ bin, (update assigned b (assigned b ++ [item]) bin).length ≤
          capacity := by
        intro bin
        rcases eq_or_ne bin b with rfl | hne
        · rw [update_self, length_append]
          exact hlt
        · rw [update_of_ne hne]
          exact hcap bin
      obtain ⟨assigned', hassigned', hspread, hcap'⟩ := ih (h.append hb item) hcap'
        (by rw [length_append, length_singleton]; omega)
      refine ⟨assigned', hassigned', ?_, hcap'⟩
      rwa [append_assoc] at hspread

/-! ### No empty bin -/

variable {empty donor : ℕ} {place : ℕ}

def emptyBins (bins : ℕ) (assigned : Assigned) : Finset ℕ :=
  (range bins).filter fun bin => assigned bin = []

theorem exists_two_of_empty (h : Spread bins items assigned) (hitems : bins ≤ items.length)
    (hbin : empty < bins) (hempty : assigned empty = []) :
    ∃ bin < bins, 2 ≤ (assigned bin).length := by
  by_contra hone
  push Not at hone
  have hle : ∑ b ∈ range bins, (assigned b).length ≤
      ∑ b ∈ range bins, if b = empty then 0 else 1 := by
    refine sum_le_sum fun b hb => ?_
    split
    · next heq => rw [heq, hempty, length_nil]
    · exact Nat.le_of_lt_succ (hone b (mem_range.mp hb))
  rw [h.sum, sum_ite, sum_const_zero, sum_const, Nat.nsmul_eq_mul] at hle
  have hlt : ((range bins).filter fun b => ¬ b = empty).card < bins := by
    refine (card_lt_card (filter_ssubset.mpr ⟨empty, mem_range.mpr hbin, ?_⟩)).trans_eq
      (card_range bins)
    exact fun hne => hne rfl
  omega

theorem exists_fullest (assigned : Assigned) (hbin : bin < bins) :
    ∃ donor < bins, fullest bins assigned = some donor ∧
      ∀ b < bins, (assigned b).length ≤ (assigned donor).length := by
  obtain ⟨donor, hmem, hmax, hle⟩ := exists_maxBy (l := List.range bins)
    (fun a b => (assigned b).length < (assigned a).length ||
      ((assigned b).length = (assigned a).length && a ≤ b))
    (fun b => (assigned b).length)
    (by
      intro a b hge
      simp only [Bool.or_eq_true, Bool.and_eq_true, decide_eq_true_eq] at hge
      rcases hge with hlt | heq
      · exact hlt.le
      · exact heq.1.le)
    (by
      intro a b hge
      simp only [Bool.or_eq_false_iff, decide_eq_false_iff_not, not_lt] at hge
      exact hge.1)
    (ne_nil_of_mem (List.mem_range.mpr hbin))
  exact ⟨donor, List.mem_range.mp hmem, hmax, fun b hb => hle b (List.mem_range.mpr hb)⟩

theorem exists_bestPlace (score : ℕ → ℕ → ℕ) (bin : ℕ) {members : List ℕ}
    (hmembers : 0 < members.length) :
    ∃ place < members.length, bestPlace score bin members = some place := by
  obtain ⟨place, hmem, hmax, -⟩ := exists_maxBy (l := List.range members.length)
    (fun p q => score (members.getD q 0) bin ≤ score (members.getD p 0) bin)
    (fun p => score (members.getD p 0) bin)
    (fun a b hge => of_decide_eq_true hge)
    (fun a b hge => (Nat.lt_of_not_le (of_decide_eq_false hge)).le)
    (ne_nil_of_mem (List.mem_range.mpr hmembers))
  exact ⟨place, List.mem_range.mp hmem, hmax⟩

theorem Spread.move (h : Spread bins items assigned) (hempty : empty < bins) (hdonor : donor < bins)
    (hplace : place < (assigned donor).length) :
    Spread bins items (move assigned empty donor place) := by
  rw [spread_iff_count] at h ⊢
  intro x
  have hitem := (getElem_cons_eraseIdx_perm hplace).count_eq x
  have htaken := sum_update_bin (List.count x) assigned hdonor ((assigned donor).eraseIdx place)
  have hgiven := sum_update_bin (List.count x)
    (update assigned donor ((assigned donor).eraseIdx place)) hempty
    (update assigned donor ((assigned donor).eraseIdx place) empty ++ [(assigned donor)[place]])
  rw [count_cons] at hitem
  rw [h x] at htaken
  rw [count_append, count_singleton] at hgiven
  rw [Backup.move, getD_eq_getElem _ _ hplace]
  omega

theorem move_apply (hne : empty ≠ donor) (place b : ℕ) :
    move assigned empty donor place b =
      if b = empty then assigned empty ++ [(assigned donor).getD place 0]
      else if b = donor then (assigned donor).eraseIdx place else assigned b := by
  simp only [move, update_apply, if_neg hne]

theorem emptyBins_move (place : ℕ) (hempty : assigned empty = []) (hbin : empty < bins)
    (hne : empty ≠ donor) (htwo : 2 ≤ (assigned donor).length) :
    (emptyBins bins (move assigned empty donor place)).card < (emptyBins bins assigned).card := by
  refine card_lt_card (ssubset_iff_of_subset ?_ |>.mpr ⟨empty, ?_, ?_⟩)
  · intro b hb
    obtain ⟨hbins, hnil⟩ := mem_filter.mp hb
    refine mem_filter.mpr ⟨hbins, ?_⟩
    rw [move_apply hne] at hnil
    split at hnil
    · next heq => exact heq ▸ hempty
    split at hnil
    · have hlength := congrArg List.length hnil
      have hle := le_length_eraseIdx (assigned donor) place
      rw [length_nil] at hlength
      omega
    · exact hnil
  · exact mem_filter.mpr ⟨mem_range.mpr hbin, hempty⟩
  · intro hmem
    have hnil := (mem_filter.mp hmem).2
    rw [move_apply hne, if_pos rfl] at hnil
    exact absurd hnil (append_ne_nil_of_right_ne_nil _ (cons_ne_nil _ _))

theorem length_move_le (hcap : ∀ bin, (assigned bin).length ≤ capacity)
    (hempty : assigned empty = []) (hne : empty ≠ donor) (htwo : 2 ≤ (assigned donor).length)
    (bin : ℕ) : (move assigned empty donor place bin).length ≤ capacity := by
  rw [move_apply hne]
  split
  · rw [hempty]
    exact (Nat.le_of_succ_le htwo).trans (hcap donor)
  split
  · exact (eraseIdx_sublist _ _).length_le.trans (hcap donor)
  · exact hcap bin

theorem exists_fillEmpty (score : ℕ → ℕ → ℕ) (h : Spread bins items assigned)
    (hcap : ∀ bin, (assigned bin).length ≤ capacity) (hitems : bins ≤ items.length) {fuel : ℕ}
    (hfuel : (emptyBins bins assigned).card ≤ fuel) :
    ∃ assigned', fillEmpty score bins fuel assigned = some assigned' ∧
      Spread bins items assigned' ∧ (∀ bin, (assigned' bin).length ≤ capacity) ∧
      ∀ bin < bins, assigned' bin ≠ [] := by
  induction fuel generalizing assigned with
  | zero =>
    refine ⟨assigned, rfl, h, hcap, ?_⟩
    intro bin hbin hnil
    have hmem : bin ∈ emptyBins bins assigned := mem_filter.mpr ⟨mem_range.mpr hbin, hnil⟩
    rw [card_eq_zero.mp (Nat.le_zero.mp hfuel)] at hmem
    exact absurd hmem (notMem_empty bin)
  | succ fuel ih =>
    rw [fillEmpty]
    cases hfind : (List.range bins).find? fun bin => (assigned bin).isEmpty with
    | none =>
      refine ⟨assigned, rfl, h, hcap, ?_⟩
      intro bin hbin hnil
      have hsome := find?_eq_none.mp hfind bin (List.mem_range.mpr hbin)
      rw [hnil] at hsome
      exact hsome rfl
    | some empty =>
      have hbin : empty < bins := List.mem_range.mp (mem_of_find?_eq_some hfind)
      have hempty : assigned empty = [] := isEmpty_iff.mp
        (find?_some (p := fun bin => (assigned bin).isEmpty) hfind)
      obtain ⟨bin, hbin', htwo⟩ := exists_two_of_empty h hitems hbin hempty
      obtain ⟨donor, hdonor, hfullest, hmax⟩ := exists_fullest assigned hbin
      have htwo : 2 ≤ (assigned donor).length := htwo.trans (hmax bin hbin')
      have hpos : 0 < (assigned donor).length := by omega
      obtain ⟨place, hplace, hbest⟩ := exists_bestPlace score empty hpos
      have hne : empty ≠ donor := by
        rintro rfl
        rw [hempty] at htwo
        cases htwo
      have hless := emptyBins_move place hempty hbin hne htwo
      obtain ⟨assigned', hassigned', hspread, hnonempty⟩ :=
        ih (h.move hbin hdonor hplace) (length_move_le hcap hempty hne htwo) (by omega)
      refine ⟨assigned', ?_, hspread, hnonempty⟩
      simp only [hfullest, hbest]
      rw [if_neg (by omega)]
      exact hassigned'

end Spread

/-! ### Every source and every target has a pair -/

section Pairs

variable {N : Type} {sourcesAreBins : Bool} {bins items : List N} {assigned : Assigned}

/-- The pair of a bin's node and an item's node. -/
def pairOf (sourcesAreBins : Bool) (bin item : N) : N × N :=
  if sourcesAreBins then (bin, item) else (item, bin)

variable {item : ℕ}

theorem pairAt_of_getElem (hbin : bin < bins.length) (hitem : item < items.length) :
    pairAt sourcesAreBins bins items bin item =
      some (pairOf sourcesAreBins bins[bin] items[item]) := by
  rw [pairAt, getElem?_eq_getElem hbin, getElem?_eq_getElem hitem]
  rfl

variable [LinearOrder N] {p : N × N}

theorem mem_pairsOf :
    p ∈ pairsOf sourcesAreBins bins items assigned ↔
      ∃ bin < bins.length, ∃ item ∈ assigned bin,
        pairAt sourcesAreBins bins items bin item = some p := by
  rw [pairsOf, List.mem_insertionSort, mem_flatMap]
  simp only [List.mem_range, List.mem_filterMap]

theorem mem_of_mem_pairsOf (hp : p ∈ pairsOf sourcesAreBins bins items assigned) :
    ∃ b ∈ bins, ∃ x ∈ items, p = pairOf sourcesAreBins b x := by
  obtain ⟨bin, -, item, -, hpair⟩ := mem_pairsOf.mp hp
  rw [pairAt] at hpair
  cases hb : bins[bin]? with
  | none =>
    rw [hb] at hpair
    cases hpair
  | some b =>
    cases hx : items[item]? with
    | none =>
      rw [hb, hx] at hpair
      cases hpair
    | some x =>
      rw [hb, hx] at hpair
      exact ⟨b, mem_of_getElem? hb, x, mem_of_getElem? hx,
        (Option.some.inj hpair).symm⟩

theorem pairOf_mem_pairsOf (hbin : bin < bins.length) (hitem : item < items.length)
    (hmem : item ∈ assigned bin) :
    pairOf sourcesAreBins bins[bin] items[item] ∈ pairsOf sourcesAreBins bins items assigned :=
  mem_pairsOf.mpr ⟨bin, hbin, item, hmem, pairAt_of_getElem hbin hitem⟩

theorem le_mul_capacity {n b : ℕ} (hb : 0 < b) : n ≤ b * ((n + b - 1) / b) := by
  have hdiv := Nat.div_add_mod (n + b - 1) b
  have hmod := Nat.mod_lt (n + b - 1) hb
  omega

theorem mem_sortedItems : item ∈ sortedItems items ↔ item < items.length := by
  rw [sortedItems, List.mem_insertionSort, List.mem_range]

theorem length_sortedItems : (sortedItems items).length = items.length := by
  rw [sortedItems, length_insertionSort, List.length_range]

variable (nodeScore : N → N → ℕ)

/-- The bins at the end: every item is in one, none is empty and none is overfull.  As no bin is
empty, the loop that fills them has ended by its own condition. -/
theorem exists_filled (sourcesAreBins : Bool) (hbins : bins ≠ [])
    (hle : bins.length ≤ items.length) :
    ∃ filled, pairInto nodeScore sourcesAreBins bins items =
        some (pairsOf sourcesAreBins bins items filled) ∧
      Spread bins.length (sortedItems items) filled ∧
      (∀ bin, (filled bin).length ≤ (items.length + bins.length - 1) / bins.length) ∧
      ∀ bin < bins.length, filled bin ≠ [] := by
  have hpos : 0 < bins.length := length_pos_iff.mpr hbins
  have hstart : Spread bins.length [] fun _ => [] :=
    spread_iff_count.mpr fun _ => sum_const_zero
  have hroom : ([] : List ℕ).length + (sortedItems items).length ≤
      bins.length * ((items.length + bins.length - 1) / bins.length) := by
    rw [length_nil, Nat.zero_add, length_sortedItems]
    exact le_mul_capacity hpos
  obtain ⟨assigned, hassign, hspread, hcap⟩ := exists_assignItems
    (scoreAt nodeScore sourcesAreBins bins items) hstart (fun _ => Nat.zero_le _)
    (sortedItems items) hroom
  have hcard : (emptyBins bins.length assigned).card ≤ bins.length :=
    (card_filter_le _ _).trans_eq (card_range _)
  rw [nil_append] at hspread
  obtain ⟨filled, hfill, hfilled⟩ := exists_fillEmpty
    (scoreAt nodeScore sourcesAreBins bins items) hspread hcap
    (by rw [length_sortedItems]; exact hle) hcard
  refine ⟨filled, ?_, hfilled⟩
  rw [pairInto]
  simp only [hassign, hfill, Option.bind_some, Option.map_some]

theorem exists_pairInto (sourcesAreBins : Bool) (hbins : bins ≠ [])
    (hle : bins.length ≤ items.length) :
    ∃ pairs, pairInto nodeScore sourcesAreBins bins items = some pairs ∧
      (∀ p ∈ pairs, ∃ b ∈ bins, ∃ x ∈ items, p = pairOf sourcesAreBins b x) ∧
      (∀ b ∈ bins, ∃ x ∈ items, pairOf sourcesAreBins b x ∈ pairs) ∧
      ∀ x ∈ items, ∃ b ∈ bins, pairOf sourcesAreBins b x ∈ pairs := by
  obtain ⟨filled, hfill, hspread, -, hnonempty⟩ :=
    exists_filled nodeScore sourcesAreBins hbins hle
  refine ⟨pairsOf sourcesAreBins bins items filled, hfill, ?_, ?_, ?_⟩
  · exact fun p hp => mem_of_mem_pairsOf hp
  · intro b hb
    obtain ⟨bin, hbin, rfl⟩ := getElem_of_mem hb
    obtain ⟨item, hitem⟩ := exists_mem_of_ne_nil _ (hnonempty bin hbin)
    have hlt := mem_sortedItems.mp (hspread.mem_iff.mpr ⟨bin, hbin, hitem⟩)
    exact ⟨items[item], getElem_mem hlt, pairOf_mem_pairsOf hbin hlt hitem⟩
  · intro x hx
    obtain ⟨item, hitem, rfl⟩ := getElem_of_mem hx
    obtain ⟨bin, hbin, hmem⟩ := hspread.mem_iff.mp (mem_sortedItems.mpr hitem)
    exact ⟨bins[bin], getElem_mem hbin, pairOf_mem_pairsOf hbin hitem hmem⟩

/-- **Pairing**.  It does not fail, it pairs sources with targets, every source has a target as
long as there is one, and every target has a source as long as there is one. -/
theorem exists_pairing (sources targets : List N) :
    ∃ pairs, pairing nodeScore sources targets = some pairs ∧
      (∀ p ∈ pairs, p.1 ∈ sources ∧ p.2 ∈ targets) ∧
      (targets ≠ [] → ∀ source ∈ sources, ∃ target ∈ targets, (source, target) ∈ pairs) ∧
      (sources ≠ [] → ∀ target ∈ targets, ∃ source ∈ sources, (source, target) ∈ pairs) := by
  rcases eq_or_ne sources [] with rfl | hsources
  · refine ⟨[], rfl, fun p hp => absurd hp not_mem_nil, ?_, fun h => absurd rfl h⟩
    exact fun _ source hsource => absurd hsource not_mem_nil
  rcases eq_or_ne targets [] with rfl | htargets
  · refine ⟨[], ?_, fun p hp => absurd hp not_mem_nil, fun h => absurd rfl h, ?_⟩
    · rw [pairing, isEmpty_nil, Bool.or_true, if_pos rfl]
    · exact fun _ target htarget => absurd htarget not_mem_nil
  have hnonempty : ¬ (sources.isEmpty || targets.isEmpty) := by
    rw [Bool.or_eq_true, List.isEmpty_iff, List.isEmpty_iff]
    exact fun h => h.elim hsources htargets
  rw [pairing, if_neg hnonempty]
  rcases lt_or_ge targets.length sources.length with hlt | hle
  · rw [if_neg (by omega)]
    obtain ⟨pairs, hpairs, hsound, hbins, hitems⟩ := exists_pairInto nodeScore false htargets hlt.le
    refine ⟨pairs, hpairs, ?_, fun _ => hitems, fun _ => hbins⟩
    intro p hp
    obtain ⟨b, hb, x, hx, rfl⟩ := hsound p hp
    exact ⟨hx, hb⟩
  · rw [if_pos hle]
    obtain ⟨pairs, hpairs, hsound, hbins, hitems⟩ := exists_pairInto nodeScore true hsources hle
    refine ⟨pairs, hpairs, ?_, fun _ => hbins, fun _ => hitems⟩
    intro p hp
    obtain ⟨b, hb, x, hx, rfl⟩ := hsound p hp
    exact ⟨hb, hx⟩

/-! ### How many pairs a node has -/

/-- The node of the smaller side in a pair. -/
def binOf (sourcesAreBins : Bool) (p : N × N) : N := if sourcesAreBins then p.1 else p.2

/-- The node of the larger side in a pair. -/
def itemOf (sourcesAreBins : Bool) (p : N × N) : N := if sourcesAreBins then p.2 else p.1

omit [LinearOrder N] in
theorem binOf_pairOf (b x : N) : binOf sourcesAreBins (pairOf sourcesAreBins b x) = b := by
  cases sourcesAreBins <;> rfl

omit [LinearOrder N] in
theorem itemOf_pairOf (b x : N) : itemOf sourcesAreBins (pairOf sourcesAreBins b x) = x := by
  cases sourcesAreBins <;> rfl

theorem map_itemOf_pairsOf (h : Spread bins.length (sortedItems items) assigned) :
    ((pairsOf sourcesAreBins bins items assigned).map (itemOf sourcesAreBins)).Perm items := by
  have hmap : ∀ bin ∈ List.range bins.length,
      ((assigned bin).filterMap fun item => pairAt sourcesAreBins bins items bin item).map
        (itemOf sourcesAreBins) = (assigned bin).filterMap fun item => items[item]? := by
    intro bin hbin
    rw [map_filterMap]
    refine filterMap_congr fun item hitem => ?_
    have hlt := mem_sortedItems.mp (h.mem_iff.mpr ⟨bin, List.mem_range.mp hbin, hitem⟩)
    rw [pairAt_of_getElem (List.mem_range.mp hbin) hlt, Option.map_some, itemOf_pairOf,
      getElem?_eq_getElem hlt]
  refine ((perm_insertionSort _ _).map _).trans ?_
  rw [map_flatMap, flatMap_congr hmap, ← filterMap_flatMap]
  refine ((h.trans (perm_insertionSort _ _)).filterMap _).trans ?_
  rw [filterMap_getElem?_range, take_length]

theorem count_binOf_pairsOf (h : Spread bins.length (sortedItems items) assigned)
    (hnodup : bins.Nodup) (hbin : bin < bins.length) :
    ((pairsOf sourcesAreBins bins items assigned).map (binOf sourcesAreBins)).count bins[bin] =
      (assigned bin).length := by
  have hmap : ∀ b ∈ range bins.length,
      (((assigned b).filterMap fun item => pairAt sourcesAreBins bins items b item).map
        (binOf sourcesAreBins)).count bins[bin] = if b = bin then (assigned b).length else 0 := by
    intro b hb
    have hlt := mem_range.mp hb
    have hreplicate : ((assigned b).filterMap fun item =>
        pairAt sourcesAreBins bins items b item).map (binOf sourcesAreBins) =
          (assigned b).map fun _ => bins[b] := by
      rw [map_filterMap, ← filterMap_eq_map]
      refine filterMap_congr fun item hitem => ?_
      have hmem := h.mem_iff.mpr ⟨b, hlt, hitem⟩
      rw [pairAt_of_getElem hlt (mem_sortedItems.mp hmem), Option.map_some,
        binOf_pairOf]
      rfl
    rw [hreplicate, map_const', count_replicate]
    simp only [beq_iff_eq, hnodup.getElem_inj_iff]
  refine (((perm_insertionSort _ _).map _).count_eq _).trans ?_
  rw [map_flatMap, count_flatMap]
  refine (sum_congr rfl hmap).trans ?_
  rw [sum_ite_eq', if_pos (mem_range.mpr hbin)]

theorem pairInto_balanced (sourcesAreBins : Bool) (hbins : bins ≠ []) (hbinsNodup : bins.Nodup)
    (hitemsNodup : items.Nodup) (hle : bins.length ≤ items.length) :
    ∃ pairs, pairInto nodeScore sourcesAreBins bins items = some pairs ∧
      (∀ x ∈ items, (pairs.map (itemOf sourcesAreBins)).count x = 1) ∧
      ∀ b ∈ bins, 1 ≤ (pairs.map (binOf sourcesAreBins)).count b ∧
        (pairs.map (binOf sourcesAreBins)).count b ≤
          (items.length + bins.length - 1) / bins.length := by
  obtain ⟨filled, hfill, hspread, hcap, hnonempty⟩ :=
    exists_filled nodeScore sourcesAreBins hbins hle
  refine ⟨_, hfill, fun x hx => ?_, fun b hb => ?_⟩
  · rw [(map_itemOf_pairsOf hspread).count_eq]
    exact count_eq_one_of_mem hitemsNodup hx
  · obtain ⟨bin, hbin, rfl⟩ := getElem_of_mem hb
    rw [count_binOf_pairsOf hspread hbinsNodup hbin]
    exact ⟨length_pos_iff.mpr (hnonempty bin hbin), hcap bin⟩

/-- **Balanced pairing.**  For any scores, pairing does not fail.  Each node of the larger side has
one pair, and each node of the smaller side has at least one and no more than its share. -/
theorem pairing_balanced (sources targets : List N) (hsources : sources ≠ [])
    (htargets : targets ≠ []) (hsourcesNodup : sources.Nodup) (htargetsNodup : targets.Nodup) :
    ∃ pairs, pairing nodeScore sources targets = some pairs ∧
      (∀ p ∈ pairs, p.1 ∈ sources ∧ p.2 ∈ targets) ∧
      (∀ source ∈ sources, 1 ≤ (pairs.map Prod.fst).count source) ∧
      (∀ target ∈ targets, 1 ≤ (pairs.map Prod.snd).count target) ∧
      (sources.length ≤ targets.length →
        (∀ target ∈ targets, (pairs.map Prod.snd).count target = 1) ∧
        ∀ source ∈ sources, (pairs.map Prod.fst).count source ≤
          (targets.length + sources.length - 1) / sources.length) ∧
      (targets.length ≤ sources.length →
        (∀ source ∈ sources, (pairs.map Prod.fst).count source = 1) ∧
        ∀ target ∈ targets, (pairs.map Prod.snd).count target ≤
          (sources.length + targets.length - 1) / targets.length) := by
  obtain ⟨pairs, hpairs, hmem, -⟩ := exists_pairing nodeScore sources targets
  refine ⟨pairs, hpairs, hmem, ?_⟩
  rw [pairing, if_neg (by simp [hsources, htargets])] at hpairs
  rcases Nat.lt_or_ge targets.length sources.length with hlt | hle
  · rw [if_neg (by omega)] at hpairs
    obtain ⟨_, heq, hitems, hshare⟩ :=
      pairInto_balanced nodeScore false htargets htargetsNodup hsourcesNodup hlt.le
    cases hpairs.symm.trans heq
    exact ⟨fun x hx => (hitems x hx).ge, fun b hb => (hshare b hb).1, fun hle => by omega,
      fun _ => ⟨hitems, fun b hb => (hshare b hb).2⟩⟩
  · rw [if_pos hle] at hpairs
    obtain ⟨_, heq, hitems, hshare⟩ :=
      pairInto_balanced nodeScore true hsources hsourcesNodup htargetsNodup hle
    cases hpairs.symm.trans heq
    refine ⟨fun b hb => (hshare b hb).1, fun x hx => (hitems x hx).ge,
      fun _ => ⟨hitems, fun b hb => (hshare b hb).2⟩, fun hge => ?_⟩
    -- two sides of one size: each share is one
    have hpos := length_pos_iff.mpr hsources
    have hone : (targets.length + sources.length - 1) / sources.length = 1 := by
      rw [Nat.div_eq_iff hpos]
      omega
    have hone' : (sources.length + targets.length - 1) / targets.length = 1 := by
      rw [Nat.div_eq_iff (hpos.trans_le hle)]
      omega
    refine ⟨fun b hb => ?_, fun x hx => ?_⟩
    · exact Nat.le_antisymm (hone ▸ (hshare b hb).2) (hshare b hb).1
    · rw [hone']
      exact (hitems x hx).le

theorem pairing_balanced_two_three :
    ∃ pairs, pairing (fun source target => source * target) [1, 2] [5, 6, 7] = some pairs ∧
      (∀ target ∈ [5, 6, 7], (pairs.map Prod.snd).count target = 1) ∧
      ∀ source ∈ [1, 2], (pairs.map Prod.fst).count source ≤ 2 := by
  obtain ⟨pairs, hpairs, -, -, -, hshares, -⟩ :=
    pairing_balanced (fun source target => source * target) [1, 2] [5, 6, 7] (by decide)
      (by decide) (by decide) (by decide)
  exact ⟨pairs, hpairs, hshares (by decide)⟩

end Pairs

end PegaFlow.Backup
