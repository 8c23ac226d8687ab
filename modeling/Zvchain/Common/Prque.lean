import Zvchain.Lib.SliceHeap

/-!
# The priority queue of `common/prque`

`Prque` keeps its items in a `container/heap` over a stack of blocks (`sstack`), which is a slice
split into blocks of 4096 that the heap indexes as one; here it is one list.  `sstack.Less` puts
the higher priority first by the sign of the difference of two `int64` priorities, a difference
that wraps around: the package asks that the priorities in a queue stay within `2^63` of each
other (`Window`), and there `Less` is the comparison of the priorities as integers
(`less_eq_byPriority`).  Through that comparison, which is lawful, the heap's lemmas give what
`Push` and `Pop` do on such a queue (`push_spec`, `pop_spec`).
-/

namespace Zvchain

namespace Prque

/-- `prque.Item`. -/
structure Item (α : Type) where
  value : α
  priority : Int64
  deriving DecidableEq, Repr

variable {α : Type}

/-- `sstack.Less`: `a` goes first when `a.Priority - b.Priority > 0`, the difference in `int64`. -/
def Less (a b : Item α) : Bool := decide (a.priority - b.priority > 0)

/-- `Prque.Push`. -/
def Push (cont : List (Item α)) (data : α) (priority : Int64) : List (Item α) :=
  SliceHeap.push Less cont ⟨data, priority⟩

/-- `Prque.Pop`: the value and the priority of the item `heap.Pop` takes out.  Go's `heap.Pop`
panics on an empty queue, where the callers test `Empty` first; it is `none` here. -/
def Pop (cont : List (Item α)) : Option ((α × Int64) × List (Item α)) :=
  (SliceHeap.pop Less cont).map fun p => ((p.1.value, p.1.priority), p.2)

/-- `Prque.Peek`: the value and the priority of the first item.  Go reads a nil item, and
panics, on an empty queue, where the callers test `Empty` first; it is `none` here. -/
def Peek (cont : List (Item α)) : Option (α × Int64) :=
  cont.head?.map fun item => (item.value, item.priority)

/-- `Prque.Empty`. -/
def Empty (cont : List (Item α)) : Bool := cont.length = 0

/-! ## Queues whose priorities stay within `2^63` -/

/-- The higher priority first, as integers. -/
def byPriority (a b : Item α) : Bool := decide (a.priority.toInt > b.priority.toInt)

theorem lawful_byPriority : SliceHeap.Lawful (byPriority : Item α → Item α → Bool) where
  asymm a b h := by
    simp only [byPriority, decide_eq_true_eq, decide_eq_false_iff_not] at h ⊢
    omega
  ntrans a b c h1 h2 := by
    simp only [byPriority, decide_eq_false_iff_not] at h1 h2 ⊢
    omega

/-- The precondition of the package: any two priorities in the queue differ by less than `2^63`. -/
def Window (cont : List (Item α)) : Prop :=
  ∀ x ∈ cont, ∀ y ∈ cont, x.priority.toInt - y.priority.toInt < 2 ^ 63

theorem Window.subset {s s' : List (Item α)} (hw : Window s) (hs : s' ⊆ s) : Window s' :=
  fun x hx y hy => hw x (hs hx) y (hs hy)

/-- Priorities that are not negative stay within `2^63` of each other. -/
theorem window_of_nonneg {s : List (Item α)} (hs : ∀ x ∈ s, 0 ≤ x.priority.toInt) : Window s :=
  fun x _ y hy => by
    have := x.priority.toInt_lt
    have := hs y hy
    omega

/-- Within `2^63`, the difference of two priorities does not wrap around. -/
theorem less_eq_byPriority {a b : Item α} (hab : a.priority.toInt - b.priority.toInt < 2 ^ 63)
    (hba : b.priority.toInt - a.priority.toInt < 2 ^ 63) : Less a b = byPriority a b := by
  have hsub : (a.priority - b.priority).toInt = a.priority.toInt - b.priority.toInt := by
    rw [Int64.toInt_sub]
    exact Int.bmod_eq_of_le (by omega) (by omega)
  simp only [Less, byPriority, gt_iff_lt, Int64.lt_iff_toInt_lt, hsub, Int64.toInt_zero]
  congr 1
  exact propext (by omega)

theorem agree_of_window {s : List (Item α)} (hw : Window s) : SliceHeap.Agree Less byPriority s :=
  fun x hx y hy => less_eq_byPriority (hw x hx y hy) (hw y hy x hx)

/-- `Push` onto a queue keeps the heap and adds the item. -/
theorem push_spec {cont : List (Item α)} (hh : SliceHeap.IsHeap Less cont) (data : α)
    (priority : Int64) (hw : Window (⟨data, priority⟩ :: cont)) :
    SliceHeap.IsHeap Less (Push cont data priority) ∧
      (Push cont data priority).Perm (⟨data, priority⟩ :: cont) := by
  have hag : SliceHeap.Agree Less byPriority (cont ++ [⟨data, priority⟩]) :=
    (agree_of_window hw).perm (List.perm_append_singleton _ _)
  obtain ⟨hh', hperm⟩ := SliceHeap.push_spec lawful_byPriority
    ((SliceHeap.isHeap_iff_of_agree ((agree_of_window hw).subset
      (List.subset_cons_self _ _))).mp hh) ⟨data, priority⟩
  rw [Push, SliceHeap.push_eq_of_agree hag]
  exact ⟨(SliceHeap.isHeap_iff_of_agree ((agree_of_window hw).perm hperm)).mpr hh', hperm⟩

/-- `Pop` of a non-empty queue takes out an item of the highest priority and leaves the rest as
a heap. -/
theorem pop_spec {cont : List (Item α)} (hh : SliceHeap.IsHeap Less cont) (hw : Window cont)
    (hne : cont ≠ []) :
    ∃ x rest, Pop cont = some ((x.value, x.priority), rest) ∧ SliceHeap.IsHeap Less rest ∧
      (x :: rest).Perm cont ∧ ∀ y ∈ cont, y.priority.toInt ≤ x.priority.toInt := by
  have hag := agree_of_window hw
  obtain ⟨x, rest, hpop, hh', hperm, hmax⟩ :=
    SliceHeap.pop_spec lawful_byPriority ((SliceHeap.isHeap_iff_of_agree hag).mp hh) hne
  have hrest : rest ⊆ cont := fun y hy => hperm.mem_iff.mp (List.mem_cons_of_mem x hy)
  refine ⟨x, rest, ?_, (SliceHeap.isHeap_iff_of_agree (hag.subset hrest)).mpr hh', hperm,
    fun y hy => ?_⟩
  · rw [Pop, SliceHeap.pop_eq_of_agree hag, hpop]
    rfl
  · have := hmax y hy
    simp only [byPriority, decide_eq_false_iff_not] at this
    omega

/-- `Peek` reads an item of the highest priority. -/
theorem peek_spec {cont : List (Item α)} (hh : SliceHeap.IsHeap Less cont) (hw : Window cont)
    {v : α} {p : Int64} (hp : Peek cont = some (v, p)) :
    ∃ top ∈ cont, top.priority = p ∧ ∀ y ∈ cont, y.priority.toInt ≤ p.toInt := by
  cases cont with
  | nil => cases hp
  | cons top rest =>
    simp only [Peek, List.head?_cons, Option.map_some, Option.some.injEq, Prod.mk.injEq] at hp
    obtain ⟨-, rfl⟩ := hp
    have hmax := SliceHeap.not_less_root lawful_byPriority
      ((SliceHeap.isHeap_iff_of_agree (agree_of_window hw)).mp hh) (r := top) rfl
    refine ⟨top, List.mem_cons_self, rfl, fun y hy => ?_⟩
    have := hmax y hy
    simp only [byPriority, decide_eq_false_iff_not] at this
    omega

/-- Pushing items one after the other keeps the heap and adds them. -/
theorem foldl_push_spec {items cont : List (Item α)} (hh : SliceHeap.IsHeap Less cont)
    (hw : Window (items ++ cont)) :
    SliceHeap.IsHeap Less (items.foldl (fun c v => Push c v.value v.priority) cont) ∧
      (items.foldl (fun c v => Push c v.value v.priority) cont).Perm (items.reverse ++ cont) := by
  induction items generalizing cont with
  | nil => exact ⟨hh, List.Perm.refl _⟩
  | cons v items ih =>
    obtain ⟨hh', hperm⟩ := push_spec hh v.value v.priority
      (hw.subset (List.cons_subset_cons _ (List.subset_append_right _ _)))
    have hw' : Window (items ++ Push cont v.value v.priority) := hw.subset fun y hy => by
      rcases List.mem_append.mp hy with hy | hy
      · exact List.mem_cons_of_mem v (List.mem_append_left _ hy)
      · rcases List.mem_cons.mp (hperm.mem_iff.mp hy) with rfl | hy
        · exact List.mem_cons_self
        · exact List.mem_cons_of_mem v (List.mem_append_right _ hy)
    obtain ⟨hh'', hperm'⟩ := ih hh' hw'
    refine ⟨hh'', hperm'.trans ?_⟩
    rw [List.reverse_cons, List.append_assoc, List.singleton_append]
    exact List.Perm.append_left _ hperm

end Prque

end Zvchain
