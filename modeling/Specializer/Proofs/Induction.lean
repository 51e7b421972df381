import Specializer.Tree.Basic

set_option autoImplicit false

namespace Specializer

def TypeArg.ref? : TypeArg → Option TypeRef
  | .exact ref | .bounded _ _ ref => some ref
  | .unbounded _ => none

def TypeArgs.refs (list : TypeArgs) : List TypeRef := list.args.filterMap TypeArg.ref?

def Segment.refs : Segment → List TypeRef
  | .plain _ => []
  | .applied _ list => list.refs

theorem TypeArgs.sizeOf_ref {list : TypeArgs} {ref : TypeRef} (inside : ref ∈ list.refs) :
    sizeOf ref < sizeOf list := by
  obtain ⟨arg, member, has⟩ := List.mem_filterMap.mp inside
  have inArg : sizeOf ref < sizeOf arg := by
    cases arg with
    | unbounded range => cases has
    | exact inner =>
      cases has
      simp only [TypeArg.exact.sizeOf_spec]
      omega
    | bounded range kind inner =>
      cases has
      simp only [TypeArg.bounded.sizeOf_spec]
      omega
  have inList := List.sizeOf_lt_of_mem member
  cases list with
  | mk range args =>
    simp only [TypeArgs.args, TypeArgs.mk.sizeOf_spec] at inList ⊢
    omega

theorem Segment.sizeOf_ref {segment : Segment} {ref : TypeRef} (inside : ref ∈ segment.refs) :
    sizeOf ref < sizeOf segment := by
  cases segment with
  | plain name => cases inside
  | applied name list =>
    have inList := TypeArgs.sizeOf_ref inside
    simp only [Segment.applied.sizeOf_spec]
    omega

/-- What holds of a reference if it holds of those among its arguments holds of every reference. -/
@[elab_as_elim]
theorem TypeRef.induction {motive : TypeRef → Prop}
    (mk : ∀ range segments dims, (∀ segment ∈ segments, ∀ ref ∈ segment.refs, motive ref) →
      motive (.mk range segments dims)) : ∀ ref, motive ref
  | .mk range segments dims => mk range segments dims fun _ _member ref _inside =>
    TypeRef.induction mk ref
termination_by ref => sizeOf ref
decreasing_by
  have inSegments := List.sizeOf_lt_of_mem _member
  have inSegment := Segment.sizeOf_ref _inside
  simp only [TypeRef.mk.sizeOf_spec]
  omega

@[elab_as_elim]
theorem Member.induction {motive : Member → Prop} (typeUse : ∀ ref, motive (.typeUse ref))
    (importDecl : ∀ range ref isStatic onDemand, motive (.importDecl range ref isStatic onDemand))
    (typeDecl : ∀ range keyword name params supertypes members, (∀ member ∈ members, motive member) →
      motive (.typeDecl range keyword name params supertypes members))
    (methodDecl : ∀ range params members, (∀ member ∈ members, motive member) →
      motive (.methodDecl range params members))
    (creation : ∀ range type members constructorArgs, (∀ member ∈ members, motive member) →
      motive (.creation range type members constructorArgs))
    (witness : ∀ range args method, motive (.witness range args method)) : ∀ member, motive member
  | .typeUse ref => typeUse ref
  | .importDecl range ref isStatic onDemand => importDecl range ref isStatic onDemand
  | .typeDecl range keyword name params supertypes members =>
    typeDecl range keyword name params supertypes members fun member _inside =>
      Member.induction typeUse importDecl typeDecl methodDecl creation witness member
  | .methodDecl range params members => methodDecl range params members fun member _inside =>
    Member.induction typeUse importDecl typeDecl methodDecl creation witness member
  | .creation range type members constructorArgs =>
    creation range type members constructorArgs fun member _inside =>
      Member.induction typeUse importDecl typeDecl methodDecl creation witness member
  | .witness range args method => witness range args method
termination_by member => sizeOf member
decreasing_by
  all_goals
    have smaller := List.sizeOf_lt_of_mem _inside
    simp only [Member.typeDecl.sizeOf_spec, Member.methodDecl.sizeOf_spec, Member.creation.sizeOf_spec]
    omega

end Specializer
