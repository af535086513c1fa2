import BlFront.Reactor.Rule
import Std.Data.TreeMap

/-!
# The store of a reactor

What became of attributes, in the order in which it became known.  An index by number makes
the way from an attribute to its slot short; it always says the same as the list.
-/

namespace BlFront

abbrev ErrorId := Nat

inductive Slot where
  | value (value : Value)
  | error (id : ErrorId)

/-! ### Numbers of attributes -/

def Owner.number : Owner → Nat
  | .node id => 2 * id.index
  | .symbol id => 2 * id.index + 1

def AttrName.number : AttrName → Nat
  | .scope => 0
  | .symbol => 1
  | .type => 2
  | .returnType => 3
  | .returns => 4
  | .containingFunction => 5
  | .containingClass => 6
  | .superclass => 7

def Attribute.number (attr : Attribute) : Nat := 8 * attr.owner.number + attr.name.number

theorem Owner.number_inj {a b : Owner} : a.number = b.number ↔ a = b := by
  refine ⟨fun h => ?_, fun h => h ▸ rfl⟩
  obtain ⟨⟨a⟩⟩ | ⟨⟨a⟩⟩ := a <;> obtain ⟨⟨b⟩⟩ | ⟨⟨b⟩⟩ := b <;> simp only [number] at h <;>
    first | omega | (congr; omega)

theorem AttrName.number_lt (name : AttrName) : name.number < 8 := by
  cases name <;> decide

theorem AttrName.number_inj {a b : AttrName} : a.number = b.number ↔ a = b := by
  cases a <;> cases b <;> decide

theorem Attribute.number_inj {a b : Attribute} : a.number = b.number ↔ a = b := by
  refine ⟨fun h => ?_, fun h => h ▸ rfl⟩
  obtain ⟨owner, name⟩ := a
  obtain ⟨owner', name'⟩ := b
  have hn := name.number_lt
  have hn' := name'.number_lt
  simp only [number] at h
  rw [Attribute.mk.injEq, ← Owner.number_inj, ← AttrName.number_inj]
  omega

/-! ### Stores -/

structure Store where
  latestFirst : OrderedMap Attribute Slot
  index : Std.TreeMap Nat Slot
  agrees : ∀ attr : Attribute, index[attr.number]? = latestFirst.get? attr

namespace Store

def empty : Store := ⟨[], {}, fun _ => by simp⟩

def get? (s : Store) (attr : Attribute) : Option Slot := s.index[attr.number]?

def push (s : Store) (attr : Attribute) (slot : Slot) : Store where
  latestFirst := (attr, slot) :: s.latestFirst
  index := s.index.insert attr.number slot
  agrees other := by
    rw [Std.TreeMap.getElem?_insert, OrderedMap.get?, s.agrees]
    by_cases h : other = attr
    · subst h; simp
    · have hn : attr.number ≠ other.number := fun e => h (Attribute.number_inj.1 e).symm
      simp [h, hn]

def entries (s : Store) : OrderedMap Attribute Slot := s.latestFirst.reverse

def size (s : Store) : Nat := s.latestFirst.length

theorem get?_eq (s : Store) (attr : Attribute) : s.get? attr = s.latestFirst.get? attr :=
  s.agrees attr

@[simp] theorem get?_empty (attr : Attribute) : empty.get? attr = none := by simp [get?_eq, empty]

theorem get?_push (s : Store) (attr other : Attribute) (slot : Slot) :
    (s.push attr slot).get? other = if other = attr then some slot else s.get? other := by
  simp only [get?_eq, push, OrderedMap.get?, beq_iff_eq]

@[simp] theorem entries_empty : empty.entries = [] := rfl

@[simp] theorem entries_push (s : Store) (attr : Attribute) (slot : Slot) :
    (s.push attr slot).entries = s.entries ++ [(attr, slot)] := by simp [entries, push]

end Store

end BlFront
