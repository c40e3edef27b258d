import CallTrace.Method

/-!
# Class declarations

A class with the methods that it declares, in the order of declaration.
-/

namespace CallTrace

structure ClassDecl where
  name : String
  methods : List Method
  name_ne : name ≠ ""
  owner_eq : ∀ m ∈ methods, m.owner = name

namespace ClassDecl

def foreign (name : String) (ms : List Method) : List Method := ms.filter (·.owner ≠ name)

theorem foreign_eq_nil_iff {name : String} {ms : List Method} :
    foreign name ms = [] ↔ ∀ m ∈ ms, m.owner = name := by
  simp [foreign]

def make (name : String) (methods : List Method) : Checked ClassDecl := do
  let ⟨name_ne⟩ ← require (name ≠ "") (.isEmpty .name)
  let ⟨none_foreign⟩ ← require (foreign name methods = [])
    (.foreignMethods name ((foreign name methods).map Method.signature))
  return ⟨name, methods, name_ne, foreign_eq_nil_iff.mp none_foreign⟩

def named (c : ClassDecl) (name : String) : List Method :=
  c.methods.filter (·.name = name)

end ClassDecl

end CallTrace
