import Specializer.Proofs.Tallies

set_option autoImplicit false

namespace Specializer

namespace Setting

variable {setting : Setting} {slots : List Slot} {names : List Name} {parts : List (Manner × Subtree)}
  {edits : List Edit}

variable {found : RefEdits}

theorem segmentEdits_assembles {segment : Segment} (own : segment.name ∈ names)
    (made : (setting.segmentEdits (setting.scopeOf slots) segment).result = .ok found) :
    setting.Assembles slots names segment.part?.toList found.edits := by
  cases segment with
  | plain name =>
    rw [segmentEdits] at made
    split at made
    next =>
      cases Traced.pure_ok.mp made
      exact .none
    next =>
      simp only [Traced.bind_ok, Traced.pure_ok] at made
      obtain ⟨values, -, new, renamed, rfl⟩ := made
      exact .name own renamed
  | applied name args =>
    obtain ⟨range, args⟩ := args
    rcases segmentEdits_applied made with
      ⟨plain, edits, foreign, rfl⟩ | ⟨has, inScope, values, list, new, bound, renamed, rfl, source⟩
    next =>
      simp only [Segment.part?, plain, Bool.false_eq_true, if_false, Option.toList_some]
      exact .part foreign
    next =>
      simp only [Segment.part?, has, if_true, Option.toList_some]
      refine (Assembles.part ?_).append (Assembles.name own renamed)
      simp only [visit, Traced.bind_ok]
      refine ⟨inScope, bound, ?_⟩
      rcases source with ⟨rfl, -, rfl⟩ | ⟨nonempty, entries, ofArgs, source⟩
      next => simp [TypeArgs.args, TypeArgs.range, Traced.pure_ok]
      next =>
        have kept : list = setting.listEdits range entries := by
          rcases source with ⟨-, -, rfl⟩ | ⟨unknown, -, rfl⟩
          next => rfl
          next => simp [listEdits, (argEdits_lists (fun _ _ _ _ => refEdits_treats) ofArgs).whole unknown]
        rw [if_neg (by simpa [TypeArgs.args] using nonempty), Traced.bind_ok]
        exact ⟨entries, ofArgs, by rw [kept]; rfl⟩

theorem segmentsEdits_assembles {segments : List Segment}
    (own : ∀ segment ∈ segments, segment.name ∈ names)
    (made : (setting.segmentsEdits (setting.scopeOf slots) segments).result = .ok found) :
    setting.Assembles slots names (segments.filterMap Segment.part?) found.edits := by
  induction segments generalizing found with
  | nil =>
    rw [segmentsEdits, Traced.pure_ok] at made
    subst made
    exact .none
  | cons segment rest ih =>
    rw [segmentsEdits] at made
    simp only [Traced.bind_ok, Traced.pure_ok] at made
    obtain ⟨first, ofFirst, more, ofRest, rfl⟩ := made
    have here := segmentEdits_assembles (own segment List.mem_cons_self) ofFirst
    have later := ih (fun segment member => own segment (List.mem_cons_of_mem _ member)) ofRest
    have both := here.append later
    cases given : segment.part? with
    | none => simpa [List.filterMap_cons, given] using both
    | some part => simpa [List.filterMap_cons, given] using both

theorem refEdits_assembles {owner : Option (List Char)} {ref : TypeRef}
    (made : (setting.refEdits owner (setting.scopeOf slots) ref).result = .ok found) :
    setting.Assembles slots (ref.segments.map Segment.name) (ref.segments.filterMap Segment.part?)
      found.edits := by
  obtain ⟨range, segments, dims⟩ := ref
  rw [refEdits, Traced.bind_ok] at made
  obtain ⟨bare, isBare, made⟩ := made
  cases bare with
  | none => exact segmentsEdits_assembles (fun segment => List.mem_map_of_mem) made
  | some slot =>
    obtain ⟨_, name, _, same, named⟩ := bareSlot_some isBare
    cases same
    simp only [Traced.bind_ok, Traced.pure_ok] at made
    obtain ⟨value, bound, edits, edited, rfl⟩ := made
    refine ⟨edits, [], rfl, fun edit member => ⟨name, List.mem_singleton_self _, ?_⟩,
      List.forall_mem_nil _, by simp⟩
    have respells := bareEdit_respells named bound edited
    cases respells with
    | stays => cases member
    | @changes text => exact ⟨text, List.mem_singleton.mp member⟩

theorem refsEdits_assembles {refs : List TypeRef}
    (made : (setting.refsEdits (setting.scopeOf slots) refs).result = .ok edits) :
    setting.Assembles slots names (refs.map fun ref => (.alone, .ref ref)) edits := by
  induction refs generalizing edits with
  | nil =>
    rw [refsEdits, Traced.pure_ok] at made
    subst made
    exact .none
  | cons ref rest ih =>
    rw [refsEdits] at made
    simp only [Traced.bind_ok, Traced.pure_ok] at made
    obtain ⟨first, ofFirst, more, ofRest, rfl⟩ := made
    exact (Assembles.part (visit_ref .alone ofFirst)).append (ih ofRest)

theorem visit_member (member : Member) :
    setting.visit slots .alone member.subtree = setting.memberEdits (setting.scopeOf slots) member := by
  cases member with
  | typeUse ref => rw [memberEdits]; rfl
  | importDecl range ref isStatic onDemand => rw [memberEdits]; rfl
  | _ => rfl

theorem membersEdits_assembles {members : List Member}
    (made : (setting.membersEdits (setting.scopeOf slots) members).result = .ok edits) :
    setting.Assembles slots names (members.map fun member => (.alone, member.subtree)) edits := by
  induction members generalizing edits with
  | nil =>
    rw [membersEdits, Traced.pure_ok] at made
    subst made
    exact .none
  | cons member rest ih =>
    rw [membersEdits] at made
    simp only [Traced.bind_ok, Traced.pure_ok] at made
    obtain ⟨first, ofFirst, more, ofRest, rfl⟩ := made
    rw [← visit_member] at ofFirst
    exact (Assembles.part ofFirst).append (ih ofRest)

theorem optionalParams_assembles {params : Option TypeParams}
    (made : (setting.optionalParams (setting.scopeOf slots) params).result = .ok edits) :
    setting.Assembles slots names (params.toList.map fun list => (.alone, .params list)) edits := by
  cases params with
  | none =>
    rw [optionalParams, Traced.pure_ok] at made
    subst made
    exact .none
  | some list =>
    have visited : (setting.visit slots .alone (.params list)).result = .ok edits := made
    exact .part visited

theorem Visited.code {manner : Manner} {part : Subtree} (noList : part.trims manner = false)
    (shape : part.parts manner = parts)
    (assembles : setting.Assembles (part.within slots) part.names parts edits) :
    setting.Visited slots manner part edits :=
  .within (shape ▸ assembles) fun trims => by simp [noList] at trims

theorem Visited.plain {manner : Manner} {part : Subtree} (noList : part.trims manner = false)
    (nothing : part.declared = []) (shape : part.parts manner = parts)
    (assembles : setting.Assembles slots part.names parts edits) :
    setting.Visited slots manner part edits := by
  refine .code noList shape ?_
  rw [Subtree.within, if_pos nothing]
  exact assembles

section Declarations

variable {manner : Manner} {range : Range} {members : List Member} (bound : setting.Bound slots)

include bound

theorem visited_typeDecl {keyword name : Name} {params : Option TypeParams} {supertypes : List TypeRef}
    (made : (setting.visit slots manner
      (.typeDecl range keyword name params supertypes members)).result = .ok edits) :
    setting.Visited slots manner (.typeDecl range keyword name params supertypes members) edits ∧
      setting.Bound ((Subtree.typeDecl range keyword name params supertypes members).within slots) := by
  simp only [visit, memberEdits, Traced.bind_ok, Traced.pure_ok] at made
  obtain ⟨values, known, ofName, renamed, ofParams, listed, ofSupers, above, ofBody, inside, rfl⟩ := made
  have declared := declared_inside known
  rw [scopeOf_inside bound declared] at renamed listed above inside
  constructor
  next =>
    have own : name ∈ [keyword, name] := List.mem_cons_of_mem keyword List.mem_cons_self
    refine .code rfl ?_ ((((Assembles.name own renamed).append
      (optionalParams_assembles listed)).append (refsEdits_assembles above)).append
        (membersEdits_assembles inside))
    simp [Subtree.parts, Subtree.children, Function.comp_def]
  next =>
    rw [Subtree.within]
    split
    next => exact bound
    next => exact declared

theorem visited_methodDecl {params : TypeParams}
    (made : (setting.visit slots manner (.methodDecl range params members)).result = .ok edits) :
    setting.Visited slots manner (.methodDecl range params members) edits ∧
      setting.Bound ((Subtree.methodDecl range params members).within slots) := by
  simp only [visit, memberEdits, Traced.bind_ok, Traced.pure_ok] at made
  obtain ⟨ofParams, listed, ofBody, inside, rfl⟩ := made
  have declared : setting.Bound params.declared := paramsEdits_bound listed
  rw [@scopeOf_inside _ _ (some params) bound declared] at listed inside
  constructor
  next =>
    refine .code rfl ?_ ((@Assembles.part _ _ _ _ .alone (.params params) listed).append
      (membersEdits_assembles inside))
    simp [Subtree.parts, Subtree.children, Function.comp_def]
  next =>
    rw [Subtree.within]
    split
    next => exact bound
    next => exact declared

end Declarations

theorem visited_creation {manner : Manner} {range : Range} {type : TypeRef} {members : List Member}
    {constructorArgs : Option TypeArgs}
    (made : (setting.visit slots manner (.creation range type members constructorArgs)).result =
      .ok edits) :
    setting.Visited slots manner (.creation range type members constructorArgs) edits := by
  rw [visit] at made
  obtain ⟨ofArgs, found, ofBody, rfl, visited, inside, given⟩ := creation_ok made
  have listed : setting.Assembles slots []
      (constructorArgs.toList.map fun list => (.alone, .args list)) ofArgs := by
    rcases given with ⟨rfl, rfl⟩ | ⟨args, explicit, rfl, listed, rfl⟩
    next => exact .none
    next => exact .part (visit_explicit listed)
  have typed := visit_ref .alone visited
  have all := ((Assembles.part typed).append (membersEdits_assembles inside)).append listed
  refine .plain rfl rfl ?_ (all.mem_congr fun edit => ?_)
  next => simp [Subtree.parts, Subtree.children, Function.comp_def]
  next =>
    simp only [List.mem_append]
    tauto

theorem visited_args {manner : Manner} {list : TypeArgs}
    (made : (setting.visit slots manner (.args list)).result = .ok edits) :
    setting.Visited slots manner (.args list) edits := by
  obtain ⟨range, args⟩ := list
  cases manner with
  | alone =>
    simp only [visit, explicitArgs, Traced.bind_ok, Traced.pure_ok] at made
    obtain ⟨explicit, ⟨entries, ofArgs, rfl⟩, rfl⟩ := made
    exact @Tallies.visited _ _ _ .alone _ rfl (argEdits_tallies ofArgs (by simp))
  | foreign owner => exact .plain rfl rfl rfl (foreignEdits_assembles made)
  | template name =>
    simp only [visit, Traced.bind_ok] at made
    obtain ⟨inScope, known, made⟩ := made
    cases values_inScope known
    by_cases diamond : args = []
    next =>
      subst diamond
      cases Traced.pure_ok.mp made
      split
      next => exact .removed rfl rfl rfl
      next => exact .within .none fun _ => rfl
    next =>
      rw [if_neg (by simpa [TypeArgs.args] using diamond), Traced.bind_ok] at made
      obtain ⟨entries, ofArgs, made⟩ := made
      cases Traced.pure_ok.mp made
      exact @Tallies.visited _ _ _ (.template name) _ rfl (argEdits_tallies ofArgs fun _ => rfl)

-- What a visit comes to, whatever the node.
theorem visit_cases {manner : Manner} {part : Subtree} (inCode : part.InCode)
    (bound : setting.Bound slots) (made : (setting.visit slots manner part).result = .ok edits) :
    setting.Visited slots manner part edits ∧ setting.Bound (part.within slots) := by
  have same (none : part.declared = []) : part.within slots = slots := if_pos none
  -- Only declarations bring a scope of their own; all other nodes are visited in the one around
  -- them.
  cases part with
  | unit | doc => exact inCode.elim
  | typeDecl range keyword name params supertypes members => exact visited_typeDecl bound made
  | methodDecl range params members => exact visited_methodDecl bound made
  | creation range type members constructorArgs => exact ⟨visited_creation made, same rfl ▸ bound⟩
  | args list => exact ⟨visited_args made, same rfl ▸ bound⟩
  | params list =>
    refine ⟨?_, same rfl ▸ bound⟩
    simp only [visit, paramsEdits, Traced.bind_ok, Traced.pure_ok] at made
    obtain ⟨entries, ofParams, rfl⟩ := made
    exact Tallies.visited rfl (paramEntries_tallies ofParams 0)
  | importDecl range ref =>
    exact ⟨.plain rfl rfl rfl (@Assembles.part _ _ _ _ .alone (.ref ref) made), same rfl ▸ bound⟩
  | witness range args method =>
    refine ⟨.plain rfl rfl rfl ?_, same rfl ▸ bound⟩
    simp only [visit, memberEdits, Traced.bind_ok, Traced.pure_ok] at made
    obtain ⟨explicit, listed, inScope, -, ofName, renamed, rfl⟩ := made
    exact (Assembles.part (visit_explicit listed)).append (Assembles.name List.mem_cons_self renamed)
  | param declared =>
    refine ⟨.plain rfl rfl ?_ (refsEdits_assembles made), same rfl ▸ bound⟩
    simp [Subtree.parts, Subtree.children, Function.comp_def]
  | ref r =>
    refine ⟨.plain (by cases manner <;> rfl) rfl rfl ?_, same rfl ▸ bound⟩
    simp only [visit, Traced.bind_ok, Traced.pure_ok] at made
    obtain ⟨found, visited, rfl⟩ := made
    exact refEdits_assembles visited
  | wildcard range limit =>
    refine ⟨.plain (by cases manner <;> rfl) rfl rfl ?_, same rfl ▸ bound⟩
    cases limit with
    | none =>
      cases Traced.pure_ok.mp made
      exact .none
    | some ref => exact @Assembles.part _ _ _ _ _ (.ref ref) made

end Setting

end Specializer
