import BoundedLoop.Bytecode.Chunk
import BoundedLoop.Proofs.Syntax.Tree
import BoundedLoop.Scope
import Mathlib.Data.List.Basic
import Mathlib.Logic.Function.Basic

/-!
# Who owns which slot

A layout lists the owners of the slots in the order in which they are taken: a variable takes one at
its first assignment, a loop takes two that have no name. Layouts only grow at their end, so a
variable keeps its slot (`Layout.index_mono`), and a nameless slot is no variable's
(`Layout.getElem?_index`).

`Scope.of` is the scope that the compiler has when the slots are laid out so and the types known so
far are `types`.
-/

namespace BoundedLoop

/-- The types of variables, as far as they are known. -/
abbrev Types := String → Option Ty

/-- The owners of the slots. The slots of a loop have no name. -/
abbrev Layout := List (Option String)

namespace Layout

/-- Before any statement only `OUTPUT` has a slot. -/
def initial : Layout := [some Token.outputName]

/-- The number of the slot of a variable. -/
def index (l : Layout) (name : String) : Nat := l.idxOf (some name)

def slot (l : Layout) (name : String) : UInt8 := UInt8.ofNat (l.index name)

/-- Gives a slot to a variable that has none. -/
def add (l : Layout) (name : String) : Layout :=
  if some name ∈ l then l else l ++ [some name]

/-- The slots of a loop that is entered with the layout `l`. -/
def boundSlot (l : Layout) : UInt8 := UInt8.ofNat l.length

def counterSlot (l : Layout) : UInt8 := UInt8.ofNat (l.length + 1)

def addLoop (l : Layout) : Layout := l ++ [none, none]

variable {l l' : Layout} {name other : String}

theorem index_lt (h : some name ∈ l) : l.index name < l.length :=
  List.idxOf_lt_length_of_mem h

theorem getElem?_index (h : some name ∈ l) : l[l.index name]? = some (some name) := by
  rw [List.getElem?_eq_getElem (index_lt h)]
  exact congrArg some (List.getElem_idxOf (index_lt h))

theorem index_mono (h : l <+: l') (hn : some name ∈ l) : l'.index name = l.index name := by
  obtain ⟨more, rfl⟩ := h
  exact List.idxOf_append_of_mem hn

theorem slot_mono (h : l <+: l') (hn : some name ∈ l) : l'.slot name = l.slot name := by
  rw [slot, slot, index_mono h hn]

theorem toNat_slot (h : some name ∈ l) (hl : l.length ≤ Chunk.maxSlots) :
    (l.slot name).toNat = l.index name :=
  Nat.mod_eq_of_lt (Nat.lt_of_lt_of_le (index_lt h) hl)

theorem toNat_boundSlot (hl : l.addLoop.length ≤ Chunk.maxSlots) :
    l.boundSlot.toNat = l.length := by
  simp only [addLoop, List.length_append, List.length_cons, List.length_nil] at hl
  exact Nat.mod_eq_of_lt (Nat.lt_of_lt_of_le (by omega) hl)

theorem toNat_counterSlot (hl : l.addLoop.length ≤ Chunk.maxSlots) :
    l.counterSlot.toNat = l.length + 1 := by
  simp only [addLoop, List.length_append, List.length_cons, List.length_nil] at hl
  exact Nat.mod_eq_of_lt (Nat.lt_of_lt_of_le (by omega) hl)

theorem add_of_mem (h : some name ∈ l) : l.add name = l := if_pos h

theorem add_of_not_mem (h : some name ∉ l) : l.add name = l ++ [some name] := if_neg h

theorem slot_add_of_not_mem (h : some name ∉ l) :
    (l.add name).slot name = UInt8.ofNat l.length := by
  rw [add_of_not_mem h, slot, index, List.idxOf_append_of_notMem h]
  simp

theorem mem_add_self (l : Layout) (name : String) : some name ∈ l.add name := by
  by_cases h : some name ∈ l
  · rw [add_of_mem h]; exact h
  · rw [add_of_not_mem h]; simp

theorem prefix_add (l : Layout) (name : String) : l <+: l.add name := by
  by_cases h : some name ∈ l
  · simp [add_of_mem h]
  · simp [add_of_not_mem h]

theorem prefix_addLoop (l : Layout) : l <+: l.addLoop := List.prefix_append _ _

theorem mem_addLoop : some name ∈ l.addLoop ↔ some name ∈ l := by
  simp [addLoop]

theorem length_addLoop (l : Layout) : l.addLoop.length = l.length + 2 := by
  simp [addLoop]

theorem getElem?_bound (h : l.addLoop <+: l') : l'[l.length]? = some none := by
  obtain ⟨more, rfl⟩ := h
  simp [addLoop]

theorem getElem?_counter (h : l.addLoop <+: l') : l'[l.length + 1]? = some none := by
  obtain ⟨more, rfl⟩ := h
  simp [addLoop]

/-- The variables that have a slot, the latest first. -/
def names (l : Layout) : List String := (l.filterMap id).reverse

theorem mem_names : name ∈ l.names ↔ some name ∈ l := by
  simp [names]

theorem names_add_of_not_mem (h : some name ∉ l) : (l.add name).names = name :: l.names := by
  simp [names, add_of_not_mem h]

end Layout

namespace Scope

/-- The scope of the variables that have a slot in `l`, typed by `types`. -/
def of (l : Layout) (types : Types) : Scope :=
  ⟨l.names.map fun name => (name, ⟨types name, l.slot name⟩)⟩

variable {l : Layout} {types : Types} {name : String}

theorem lookup_map {α : Type} (f : String → α) (name : String) (names : List String) :
    (names.map fun n => (n, f n)).lookup name = if name ∈ names then some (f name) else none := by
  induction names with
  | nil => rfl
  | cons n names ih =>
    by_cases h : name = n
    · subst h; simp
    · have hb : (name == n) = false := by simpa using h
      simp only [List.map_cons, List.lookup_cons, hb, ih, List.mem_cons, h, false_or]

theorem find?_of (l : Layout) (types : Types) (name : String) :
    (of l types).find? name =
      if some name ∈ l then some ⟨types name, l.slot name⟩ else none := by
  rw [find?, of, lookup_map (fun n => (⟨types n, l.slot n⟩ : Variable))]
  simp only [Layout.mem_names]

theorem of_congr {l' : Layout} (hnames : l'.names = l.names)
    (hslot : ∀ n, some n ∈ l → l'.slot n = l.slot n) : of l' types = of l types := by
  rw [of, of, hnames]
  congr 1
  refine List.map_congr_left fun n hn => ?_
  rw [hslot n (Layout.mem_names.1 hn)]

theorem of_append_none (l : Layout) (types : Types) : of (l ++ [none]) types = of l types :=
  of_congr (by simp [Layout.names]) fun _ hn => Layout.slot_mono (List.prefix_append _ _) hn

theorem declare_of (hname : some name ∉ l) (hty : types name = none) :
    (of l types).declare name (UInt8.ofNat l.length) = of (l.add name) types := by
  have hslot := Layout.slot_add_of_not_mem hname
  have hne : ∀ n ∈ l.names, n ≠ name := by
    rintro n hn rfl
    exact hname (Layout.mem_names.1 hn)
  simp only [declare, of, Layout.names_add_of_not_mem hname, List.map_cons, hslot, hty]
  congr 2
  rw [List.filter_eq_self.2]
  · refine List.map_congr_left fun n hn => ?_
    rw [Layout.slot_mono (l.prefix_add name) (Layout.mem_names.1 hn)]
  · rintro e he
    obtain ⟨n, hn, rfl⟩ := List.mem_map.1 he
    simpa using hne n hn

theorem setType_of (l : Layout) (types : Types) (name : String) (ty : Ty) :
    (of l types).setType name ty = of l (Function.update types name (some ty)) := by
  simp only [setType, of, List.map_map]
  congr 1
  refine List.map_congr_left fun n _ => ?_
  by_cases hn : n = name
  · subst hn; simp
  · simp [hn]

end Scope

end BoundedLoop
