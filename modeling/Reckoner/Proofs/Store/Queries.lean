import Mathlib.Data.List.Nodup
import Mathlib.Data.List.TakeWhile
import Reckoner.Proofs.Store.Records

/-!
# Queries

What a store answers when it is asked for its records. They are kept under their numbers, so each
answer is settled by what it holds and by its order: `Built.queried` says both, and that the answers
are the same in whatever order the records are listed.
-/

namespace Reckoner

namespace Text

theorem occurs_iff {fragment cs : List Char} : occurs fragment cs = true ↔ fragment <:+: cs := by
  induction cs with
  | nil => simp [occurs]
  | cons c cs ih =>
    rw [occurs, Bool.or_eq_true, List.isPrefixOf_iff_prefix, ih, List.infix_cons_iff]

theorem trimmed_eq_nil_iff {cs : List Char} : trimmed cs = [] ↔ ∀ c ∈ cs, isBlank c = true := by
  rw [trimmed, List.reverse_eq_nil_iff, List.dropWhile_eq_nil_iff]
  constructor
  · intro blank
    have none : cs.dropWhile isBlank = [] := by
      by_contra some
      have first := List.head_dropWhile_not isBlank some
      rw [blank _ (List.mem_reverse.2 (List.head_mem some))] at first
      cases first
    exact List.dropWhile_eq_nil_iff.1 none
  · intro blank c member
    exact blank c ((List.dropWhile_sublist isBlank).subset (List.mem_reverse.1 member))

end Text

theorem Calendar.daysInMonth_le (year : Int) (month : Nat) : daysInMonth year month ≤ 31 := by
  unfold daysInMonth
  split
  · split <;> decide
  · split <;> decide

theorem Instant.rank_inj {a b : Instant} : a.rank = b.rank ↔ a = b := by
  refine ⟨fun same => ?_, congrArg rank⟩
  obtain ⟨year, month, day, hour, minute, second, nanos, isDate, isTime⟩ := a
  obtain ⟨year', month', day', hour', minute', second', nanos', isDate', isTime'⟩ := b
  have short := isDate.2.2.2.2.2.trans (Calendar.daysInMonth_le year month)
  have short' := isDate'.2.2.2.2.2.trans (Calendar.daysInMonth_le year' month')
  simp only [rank, Duration.perSecond] at same isTime isTime'
  have date := isDate.2.2.2.1
  have date' := isDate'.2.2.2.1
  obtain rfl : nanos = nanos' := by omega
  obtain rfl : second = second' := by omega
  obtain rfl : minute = minute' := by omega
  obtain rfl : hour = hour' := by omega
  obtain rfl : day = day' := by omega
  obtain rfl : month = month' := by omega
  obtain rfl : year = year' := by omega
  rfl

/-! ### Orders of records -/

namespace Calculation

variable {a b c : Calculation}

/-- Both have numbers, and that of the first one is smaller. -/
def Precedes (a b : Calculation) : Prop :=
  ∃ i j, a.id = some i ∧ b.id = some j ∧ i < j

/-- The first one was created later, or at the same time with a larger number. -/
def Outranks (a b : Calculation) : Prop :=
  b.createdAt < a.createdAt ∨ a.createdAt = b.createdAt ∧ b.Precedes a

/-- The order by number in which those without one come first. -/
def isUpTo (a b : Calculation) : Bool :=
  match a.id, b.id with
  | none, _ => true
  | some _, none => false
  | some i, some j => i ≤ j

theorem isUpTo_iff : a.isUpTo b = true ↔ ∀ i ∈ a.id, ∃ j ∈ b.id, i ≤ j := by
  unfold isUpTo
  cases a.id <;> cases b.id <;> simp

theorem isUpTo_trans (a b c : Calculation) (first : a.isUpTo b = true) (second : b.isUpTo c = true) :
    a.isUpTo c = true := by
  rw [isUpTo_iff] at *
  intro i named
  obtain ⟨j, middle, le⟩ := first i named
  obtain ⟨k, last, le'⟩ := second j middle
  exact ⟨k, last, UInt64.le_trans le le'⟩

theorem isUpTo_total (a b : Calculation) : (a.isUpTo b || b.isUpTo a) = true := by
  unfold isUpTo
  cases a.id <;> cases b.id <;> simp [UInt64.le_total]

theorem Precedes.isUpTo (h : a.Precedes b) : a.isUpTo b = true := by
  obtain ⟨i, j, first, second, less⟩ := h
  simp [Calculation.isUpTo, first, second, UInt64.le_of_lt less]

end Calculation

open Calculation (Precedes Outranks isUpTo)

namespace Store

variable {s : Store} {a b c : Calculation}

theorem isLater_iff : isLater a b = true ↔
    b.createdAt.rank < a.createdAt.rank ∨
      a.createdAt.rank = b.createdAt.rank ∧ b.isUpTo a = true := by
  unfold isLater isUpTo
  split
  · rename_i same
    simp only [same, Int.lt_irrefl, true_and, false_or]
    cases a.id <;> cases b.id <;> rfl
  · rename_i other
    simp [other]

theorem isLater_trans (a b c : Calculation) (first : isLater a b = true)
    (second : isLater b c = true) : isLater a c = true := by
  rw [isLater_iff] at *
  rcases first with earlier | ⟨same, upTo⟩
  · exact .inl (by omega)
  · rcases second with earlier | ⟨same', upTo'⟩
    · exact .inl (same ▸ earlier)
    · exact .inr ⟨same.trans same', Calculation.isUpTo_trans c b a upTo' upTo⟩

theorem isLater_total (a b : Calculation) : (isLater a b || isLater b a) = true := by
  rw [Bool.or_eq_true, isLater_iff, isLater_iff]
  have total := Bool.or_eq_true _ _ ▸ b.isUpTo_total a
  rcases Int.lt_trichotomy a.createdAt.rank b.createdAt.rank with less | same | more
  · exact .inr (.inl less)
  · exact total.imp (fun upTo => .inr ⟨same, upTo⟩) fun upTo => .inr ⟨same.symm, upTo⟩
  · exact .inl (.inl more)

theorem outranks_of_isLater {i j : Calculation.Id} (first : a.id = some i) (second : b.id = some j)
    (other : i ≠ j) (later : isLater a b = true) : a.Outranks b := by
  rcases isLater_iff.1 later with earlier | ⟨same, upTo⟩
  · exact .inl earlier
  · obtain ⟨i', named, le⟩ := Calculation.isUpTo_iff.1 upTo j second
    obtain rfl := Option.some.inj (first.symm.trans named)
    exact .inr ⟨Instant.rank_inj.1 same, j, i, second, first, UInt64.lt_of_le_of_ne le other.symm⟩

theorem Keyed.ascending (keyed : s.Keyed) : s.all.Pairwise Precedes := by
  rw [all_eq, List.pairwise_map]
  refine Std.TreeMap.ordered_keys_toList.imp_of_mem ?_
  intro x y first second less
  refine ⟨x.1, y.1, keyed _ _ (Std.TreeMap.mem_toList_iff_getElem?_eq_some.1 first),
    keyed _ _ (Std.TreeMap.mem_toList_iff_getElem?_eq_some.1 second), ?_⟩
  exact Std.compare_eq_lt.1 less

theorem Keyed.outranking (keyed : s.Keyed) : (s.all.mergeSort isLater).Pairwise Outranks := by
  have sorted : (s.all.mergeSort isLater).Pairwise fun a b => isLater a b = true :=
    List.pairwise_mergeSort isLater_trans isLater_total _
  have perm := List.mergeSort_perm s.all isLater
  have distinct : (s.all.mergeSort isLater).Pairwise fun a b => a.id ≠ b.id :=
    List.pairwise_map.1 ((perm.map Calculation.id).nodup_iff.2 keyed.nodup_ids)
  refine (sorted.and distinct).imp_of_mem ?_
  rintro a b first second ⟨later, other⟩
  obtain ⟨i, found⟩ := mem_all.1 (perm.mem_iff.1 first)
  obtain ⟨j, found'⟩ := mem_all.1 (perm.mem_iff.1 second)
  have named := keyed i a found
  have named' := keyed j b found'
  refine outranks_of_isLater named named' (fun same => other ?_) later
  rw [named, named', same]

@[simp] theorem length_all (s : Store) : s.all.length = s.size := by
  rw [all_eq, List.length_map, Std.TreeMap.length_toList]
  rfl

/-! ### Listings -/

/-- Each record once, in some order. -/
def Lists (s : Store) (listing : List Calculation) : Prop :=
  listing.Nodup ∧ ∀ c, c ∈ listing ↔ ∃ id, s.find? id = some c

/-- Those of a listing that pass, sorted by number. -/
def gathered (listing : List Calculation) (p : Calculation → Bool) : List Calculation :=
  (listing.filter p).mergeSort isUpTo

theorem Keyed.nodup_all (keyed : s.Keyed) : s.all.Nodup :=
  List.Nodup.of_map Calculation.id keyed.nodup_ids

theorem Keyed.eq_of_isUpTo (keyed : s.Keyed) (first : a ∈ s.all) (second : b ∈ s.all)
    (upTo : a.isUpTo b = true) (downTo : b.isUpTo a = true) : a = b := by
  obtain ⟨i, found⟩ := mem_all.1 first
  obtain ⟨j, found'⟩ := mem_all.1 second
  obtain ⟨j', named, le⟩ := Calculation.isUpTo_iff.1 upTo i (keyed i a found)
  obtain ⟨i', named', ge⟩ := Calculation.isUpTo_iff.1 downTo j (keyed j b found')
  obtain rfl := Option.some.inj (named.symm.trans (keyed j b found'))
  obtain rfl := Option.some.inj (named'.symm.trans (keyed i a found))
  obtain rfl := UInt64.le_antisymm le ge
  exact Option.some.inj (found.symm.trans found')

/-- What is gathered does not depend on the order in which the records are listed. -/
theorem Keyed.gathered_eq (keyed : s.Keyed) {listing : List Calculation} (lists : s.Lists listing)
    (p : Calculation → Bool) : gathered listing p = s.all.filter p := by
  have perm : listing.Perm s.all :=
    (List.perm_ext_iff_of_nodup lists.1 keyed.nodup_all).2 fun c => (lists.2 c).trans mem_all.symm
  have sorted : (gathered listing p).Pairwise fun a b => a.isUpTo b = true :=
    List.pairwise_mergeSort Calculation.isUpTo_trans Calculation.isUpTo_total _
  have ascending : (s.all.filter p).Pairwise fun a b => a.isUpTo b = true :=
    (keyed.ascending.imp Precedes.isUpTo).filter p
  refine List.Perm.eq_of_pairwise ?_ sorted ascending
    ((List.mergeSort_perm _ _).trans (perm.filter p))
  intro a b first second upTo downTo
  have held := (List.mem_filter.1 ((List.mergeSort_perm _ _).mem_iff.1 first)).1
  exact keyed.eq_of_isUpTo (perm.mem_iff.1 held) (List.mem_filter.1 second).1 upTo downTo

/-! ### Answers -/

/-- Whether the number of a record holds the digits of a fragment. -/
def holds (fragment : List Char) (c : Calculation) : Bool :=
  c.id.any fun id => Text.occurs fragment (Nat.toDigits 10 id.toNat)

theorem search_eq (s : Store) (fragment : String) : s.search fragment =
    if (Text.trimmed fragment.toList).isEmpty then s.all.reverse
    else s.all.filter (holds (Text.trimmed fragment.toList)) :=
  rfl

theorem Keyed.mem_filter_holds (keyed : s.Keyed) {fragment : List Char} :
    c ∈ s.all.filter (holds fragment) ↔
      ∃ id, s.find? id = some c ∧ fragment <:+: Nat.toDigits 10 id.toNat := by
  rw [List.mem_filter, mem_all]
  constructor
  · rintro ⟨⟨id, found⟩, passes⟩
    rw [holds, keyed id c found, Option.any_some, Text.occurs_iff] at passes
    exact ⟨id, found, passes⟩
  · rintro ⟨id, found, here⟩
    rw [holds, keyed id c found, Option.any_some, Text.occurs_iff]
    exact ⟨⟨id, found⟩, here⟩

theorem isPending_iff : c.isPending = true ↔ c.status = .queued ∨ c.status = .calculating := by
  unfold Calculation.isPending
  cases c.status <;> simp [Calculation.Status.isPending]

theorem length_latest (s : Store) (n : Nat) : (s.latest n).length = min n s.size := by
  rw [latest, List.length_take, List.length_mergeSort, length_all]

theorem mem_of_mem_latest {n : Nat} (member : c ∈ s.latest n) : ∃ id, s.find? id = some c :=
  mem_all.1 ((List.mergeSort_perm _ _).mem_iff.1 (List.mem_of_mem_take member))

/-- What is left out comes behind everything that is not. -/
theorem Keyed.outranks_of_mem_latest (keyed : s.Keyed) {n : Nat} {id : Calculation.Id}
    (member : a ∈ s.latest n) (found : s.find? id = some b) (left : b ∉ s.latest n) :
    a.Outranks b := by
  have sorted := keyed.outranking
  rw [← List.take_append_drop n (s.all.mergeSort isLater), List.pairwise_append] at sorted
  have listed : b ∈ s.all.mergeSort isLater :=
    (List.mergeSort_perm _ _).mem_iff.2 (mem_all.2 ⟨id, found⟩)
  rw [← List.take_append_drop n (s.all.mergeSort isLater), List.mem_append] at listed
  exact sorted.2.2 a member b (listed.resolve_left left)

/-- What the answers of a store hold and in which order, and that the answers do not depend on how
the records are listed. -/
structure Queried (s : Store) : Prop where
  keyed : s.Keyed
  matching : ∀ fragment : String, (∃ c ∈ fragment.toList, Text.isBlank c = false) →
    (s.search fragment).Pairwise Precedes ∧
    ∀ c, c ∈ s.search fragment ↔
      ∃ id, s.find? id = some c ∧ Text.trimmed fragment.toList <:+: Nat.toDigits 10 id.toNat
  everything : ∀ fragment : String, (∀ c ∈ fragment.toList, Text.isBlank c = true) →
    (s.search fragment).Pairwise (fun a b => b.Precedes a) ∧
    ∀ c, c ∈ s.search fragment ↔ ∃ id, s.find? id = some c
  pending : s.unfinished.Pairwise Precedes ∧
    ∀ c, c ∈ s.unfinished ↔
      (∃ id, s.find? id = some c) ∧ (c.status = .queued ∨ c.status = .calculating)
  newest : ∀ n, (s.latest n).length = min n s.size ∧ (s.latest n).Pairwise Outranks ∧
    (∀ c ∈ s.latest n, ∃ id, s.find? id = some c) ∧
    ∀ c ∈ s.latest n, ∀ id d, s.find? id = some d → d ∉ s.latest n → c.Outranks d
  unordered : ∀ listing, s.Lists listing →
    (∀ fragment : String, s.search fragment =
      if (Text.trimmed fragment.toList).isEmpty then (gathered listing fun _ => true).reverse
      else gathered listing (holds (Text.trimmed fragment.toList))) ∧
    s.unfinished = gathered listing Calculation.isPending ∧
    ∀ n, s.latest n = ((gathered listing fun _ => true).mergeSort isLater).take n

theorem Built.queried (h : s.Built) : s.Queried := by
  have keyed := h.keyed
  refine ⟨keyed, fun fragment some => ?_, fun fragment blank => ?_, ?_, fun n => ?_,
    fun listing lists => ?_⟩
  · have nonempty : (Text.trimmed fragment.toList).isEmpty = false := by
      rw [List.isEmpty_eq_false_iff, ne_eq, Text.trimmed_eq_nil_iff]
      obtain ⟨c, member, other⟩ := some
      intro blank
      rw [blank c member] at other
      cases other
    rw [search_eq, nonempty]
    exact ⟨keyed.ascending.filter _, fun c => keyed.mem_filter_holds⟩
  · rw [search_eq, Text.trimmed_eq_nil_iff.2 blank]
    exact ⟨List.pairwise_reverse.2 keyed.ascending, fun c => List.mem_reverse.trans mem_all⟩
  · exact ⟨keyed.ascending.filter _, fun c => mem_unfinished.trans (and_congr_right' isPending_iff)⟩
  · exact ⟨length_latest s n, keyed.outranking.sublist (List.take_sublist _ _),
      fun c member => mem_of_mem_latest member,
      fun c member id d found left => keyed.outranks_of_mem_latest member found left⟩
  · simp only [keyed.gathered_eq lists, List.filter_true]
    exact ⟨search_eq s, rfl, fun n => rfl⟩

/-- Two records come from a file, the later one with the smaller number, and a third one is new. -/
def shelf : Store :=
  (Snapshot.restore ⟨1, none, [{ Calculation.new "6*2" default with id := some 12, status := .queued },
    { Calculation.new "1" default with id := some 3, status := .done }]⟩).create
      (.new "2+2" default) |>.2

theorem shelf_queried : shelf.Built ∧ shelf.Queried ∧
    (shelf.search " 1").map Calculation.id = [some 12, some 13] ∧
    shelf.unfinished.map Calculation.id = [some 12] ∧ shelf.size = 3 := by
  have built : shelf.Built := (Built.restored _).created _
  exact ⟨built, built.queried, rfl, rfl, rfl⟩

end Store

end Reckoner
