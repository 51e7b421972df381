set_option autoImplicit false

namespace Specializer

def insertBy {α : Type} (le : α → α → Bool) (a : α) : List α → List α
  | [] => [a]
  | b :: rest => if le a b then a :: b :: rest else b :: insertBy le a rest

-- Elements that are equal in the order stay as they stood.
def sortBy {α : Type} (le : α → α → Bool) : List α → List α
  | [] => []
  | a :: rest => insertBy le a (sortBy le rest)

theorem insertBy_perm {α : Type} (le : α → α → Bool) (a : α) (items : List α) :
    (insertBy le a items).Perm (a :: items) := by
  induction items with
  | nil => exact List.Perm.refl _
  | cons b rest ih =>
    simp only [insertBy]
    split
    next => exact List.Perm.refl _
    next => exact (ih.cons b).trans (List.Perm.swap a b rest)

theorem sortBy_perm {α : Type} (le : α → α → Bool) (items : List α) :
    (sortBy le items).Perm items := by
  induction items with
  | nil => exact List.Perm.refl _
  | cons a rest ih => exact (insertBy_perm le a (sortBy le rest)).trans (ih.cons a)

end Specializer
