import Specializer.Grammar.Parse
import Specializer.Proofs.Reading

set_option autoImplicit false

namespace Specializer

def Range.relocate (place : Nat → Nat) (range : Range) : Range :=
  ⟨place range.start, place (range.stop - 1) + 1⟩

def Name.relocate (place : Nat → Nat) (name : Name) : Name := ⟨place name.index, name.text⟩

mutual

def TypeRef.relocate (place : Nat → Nat) : TypeRef → TypeRef
  | .mk range segments dims => .mk (range.relocate place) (relocateSegments place segments) dims

def relocateSegments (place : Nat → Nat) : List Segment → List Segment
  | [] => []
  | .plain name :: rest => .plain (name.relocate place) :: relocateSegments place rest
  | .applied name args :: rest =>
    .applied (name.relocate place) (args.relocate place) :: relocateSegments place rest

def TypeArgs.relocate (place : Nat → Nat) : TypeArgs → TypeArgs
  | .mk range args => .mk (range.relocate place) (relocateArgs place args)

def relocateArgs (place : Nat → Nat) : List TypeArg → List TypeArg
  | [] => []
  | .exact ref :: rest => .exact (ref.relocate place) :: relocateArgs place rest
  | .unbounded range :: rest => .unbounded (range.relocate place) :: relocateArgs place rest
  | .bounded range kind ref :: rest =>
    .bounded (range.relocate place) kind (ref.relocate place) :: relocateArgs place rest

end

def TypeParam.relocate (place : Nat → Nat) (param : TypeParam) : TypeParam :=
  ⟨param.range.relocate place, param.name.relocate place,
   param.bounds.map (TypeRef.relocate place)⟩

def TypeParams.relocate (place : Nat → Nat) (params : TypeParams) : TypeParams :=
  ⟨params.range.relocate place, params.params.map (TypeParam.relocate place)⟩

mutual

def Member.relocate (place : Nat → Nat) : Member → Member
  | .typeUse ref => .typeUse (ref.relocate place)
  | .importDecl range ref isStatic onDemand =>
    .importDecl (range.relocate place) (ref.relocate place) isStatic onDemand
  | .typeDecl range keyword name params supertypes members =>
    .typeDecl (range.relocate place) (keyword.relocate place) (name.relocate place)
      (params.map (TypeParams.relocate place)) (supertypes.map (TypeRef.relocate place))
      (relocateMembers place members)
  | .methodDecl range params members =>
    .methodDecl (range.relocate place) (params.relocate place) (relocateMembers place members)
  | .creation range type members constructorArgs =>
    .creation (range.relocate place) (type.relocate place) (relocateMembers place members)
      (constructorArgs.map (TypeArgs.relocate place))
  | .witness range args method =>
    .witness (range.relocate place) (args.relocate place) (method.relocate place)

def relocateMembers (place : Nat → Nat) : List Member → List Member
  | [] => []
  | member :: rest => member.relocate place :: relocateMembers place rest

end

variable {place : Nat → Nat}

def Segment.relocate (place : Nat → Nat) : Segment → Segment
  | .plain name => .plain (name.relocate place)
  | .applied name args => .applied (name.relocate place) (args.relocate place)

def TypeArg.relocate (place : Nat → Nat) : TypeArg → TypeArg
  | .exact ref => .exact (ref.relocate place)
  | .unbounded range => .unbounded (range.relocate place)
  | .bounded range kind ref => .bounded (range.relocate place) kind (ref.relocate place)

theorem relocateSegments_eq (segments : List Segment) :
    relocateSegments place segments = segments.map (Segment.relocate place) := by
  induction segments with
  | nil => rw [relocateSegments, List.map_nil]
  | cons segment rest ih => cases segment <;> simp [relocateSegments, Segment.relocate, ih]

theorem relocateArgs_eq (args : List TypeArg) :
    relocateArgs place args = args.map (TypeArg.relocate place) := by
  induction args with
  | nil => rw [relocateArgs, List.map_nil]
  | cons arg rest ih => cases arg <;> simp [relocateArgs, TypeArg.relocate, ih]

theorem relocateMembers_eq (members : List Member) :
    relocateMembers place members = members.map (Member.relocate place) := by
  induction members with
  | nil => rw [relocateMembers, List.map_nil]
  | cons member rest ih => simp [relocateMembers, ih]

theorem TypeRef.relocate_mk (range : Range) (segments : List Segment) (dims : Nat) :
    (TypeRef.mk range segments dims).relocate place =
      .mk (range.relocate place) (segments.map (Segment.relocate place)) dims := by
  rw [TypeRef.relocate, relocateSegments_eq]

theorem TypeArgs.relocate_mk (range : Range) (args : List TypeArg) :
    (TypeArgs.mk range args).relocate place =
      .mk (range.relocate place) (args.map (TypeArg.relocate place)) := by
  rw [TypeArgs.relocate, relocateArgs_eq]

@[simp] theorem TypeParam.range_relocate (param : TypeParam) :
    (param.relocate place).range = param.range.relocate place := rfl

@[simp] theorem TypeParams.range_relocate (params : TypeParams) :
    (params.relocate place).range = params.range.relocate place := rfl

@[simp] theorem TypeRef.range_relocate (ref : TypeRef) :
    (ref.relocate place).range = ref.range.relocate place := by
  cases ref
  rw [TypeRef.relocate, TypeRef.range, TypeRef.range]

@[simp] theorem TypeArgs.range_relocate (args : TypeArgs) :
    (args.relocate place).range = args.range.relocate place := by
  cases args
  rw [TypeArgs.relocate, TypeArgs.range, TypeArgs.range]

@[simp] theorem TypeArg.range_relocate (arg : TypeArg) :
    (arg.relocate place).range = arg.range.relocate place := by
  cases arg with
  | exact ref => exact ref.range_relocate
  | unbounded | bounded => rfl

@[simp] theorem Member.range_relocate (member : Member) :
    (member.relocate place).range = member.range.relocate place := by
  cases member <;> simp [Member.relocate, Member.range, TypeRef.range_relocate]

theorem Segment.name_relocate (segment : Segment) :
    (segment.relocate place).name = segment.name.relocate place := by
  cases segment <;> rfl

theorem Segment.isRelevant_relocate (segment : Segment) :
    (segment.relocate place).isRelevant = segment.isRelevant := by
  cases segment <;> rfl

namespace Grammar

variable {α β γ δ : Type}

def Failure.relocate (place : Nat → Nat) : Failure → Failure
  | .expected what index => .expected what (index.map place)
  | .unbalanced index => .unbalanced (place index)

def Outcome.relocate (place : Nat → Nat) (move : α → β) : Outcome α → Outcome β
  | .done value next => .done (move value) next
  | .miss what missed => .miss what missed
  | .fail failure => .fail (failure.relocate place)
  | .stuck => .stuck

def Extent.relocate (place : Nat → Nat) : Extent → Extent
  | .closing closer opener => .closing closer (place opener)
  | .template => .template
  | .member => .member

-- The two read the same lexemes, and what the second gives goes by places where the first counts.
def Renumbers (place : Nat → Nat) (f : α → β) (counted : Read α) (numbered : Read β) : Prop :=
  ∀ cursor, numbered cursor = (counted cursor).relocate place f

namespace Renumbers

variable {f : α → β} {g : γ → δ} {counted other : Read α} {numbered another : Read β}

theorem pure {value : α} {moved : β} (same : moved = f value) :
    Renumbers place f (Pure.pure value) (Pure.pure moved) := by
  subst same
  exact fun _ => rfl

theorem bind (first : Renumbers place f counted numbered) {next : α → Read γ} {after : β → Read δ}
    (more : ∀ value, Renumbers place g (next value) (after (f value))) :
    Renumbers place g (counted >>= next) (numbered >>= after) := by
  intro cursor
  change numbered.andThen after cursor = (counted.andThen next cursor).relocate place g
  rw [Read.andThen, Read.andThen, first cursor]
  cases counted cursor with
  | done value middle => exact more value middle
  | miss | fail | stuck => rfl

theorem branch {test : Cursor → Bool} (yes : Renumbers place f counted numbered)
    (no : Renumbers place f other another) :
    Renumbers place f (Read.branch test counted other) (Read.branch test numbered another) := by
  intro cursor
  rw [Read.branch, Read.branch]
  split
  · exact yes cursor
  · exact no cursor

theorem ite {test : Prop} [Decidable test] (yes : Renumbers place f counted numbered)
    (no : Renumbers place f other another) :
    Renumbers place f (if test then counted else other) (if test then numbered else another) := by
  split
  · exact yes
  · exact no

theorem stuck : Renumbers place f Read.stuck Read.stuck := fun _ => rfl

theorem index : Renumbers place place Read.index (@Read.index (.ofPlaces place)) := fun _ => rfl

theorem past :
    Renumbers place (fun stop => place (stop - 1) + 1) Read.past (@Read.past (.ofPlaces place)) :=
  fun _ => rfl

theorem take : Renumbers place (Name.relocate place) Read.take (@Read.take (.ofPlaces place)) := by
  intro cursor
  simp only [Read.take]
  cases cursor.rest <;> rfl

theorem failure (cursor : Cursor) (what : Expected) :
    @Cursor.failure (.ofPlaces place) cursor what = (cursor.failure what).relocate place := by
  simp only [Cursor.failure]
  split <;> rfl

theorem fail (what : Expected) :
    Renumbers place f (Read.fail what) (@Read.fail (.ofPlaces place) β what) :=
  fun cursor => congrArg Outcome.fail (failure cursor what)

theorem unbalanced (index : Nat) :
    Renumbers place f (Read.unbalanced index) (Read.unbalanced (place index)) := fun _ => rfl

theorem miss (what : Expected) : Renumbers place f (Read.miss what) (Read.miss what) := fun _ => rfl

theorem strict (read : Renumbers place f counted numbered) :
    Renumbers place f (Read.strict counted) (@Read.strict (.ofPlaces place) β numbered) := by
  intro cursor
  simp only [Read.strict, read cursor]
  cases counted cursor with
  | miss what missed => exact congrArg Outcome.fail (failure missed what)
  | done | fail | stuck => rfl

theorem optional (read : Renumbers place f counted numbered) :
    Renumbers place (Option.map f) (Read.optional counted) (Read.optional numbered) := by
  intro cursor
  rw [Read.optional, Read.optional, read cursor]
  cases counted cursor <;> rfl

theorem whole {what : Expected} (read : Renumbers place f counted numbered) :
    Renumbers place f (Read.whole what counted) (Read.whole what numbered) := by
  intro cursor
  rw [Read.whole, Read.whole, read cursor]
  cases counted cursor <;> rfl

theorem part {what : Expected} (read : Renumbers place f counted numbered) :
    Renumbers place f (Read.part what counted) (Read.part what numbered) := by
  intro cursor
  rw [Read.part, Read.part, read cursor]
  cases counted cursor <;> rfl

theorem inspect {reads : Lexeme → Read α} {others : Lexeme → Read β}
    (each : ∀ lexeme, Renumbers place f (reads lexeme) (others lexeme)) :
    Renumbers place f (Read.inspect reads) (Read.inspect others) := by
  intro cursor
  rw [Read.inspect, Read.inspect]
  split
  · exact each _ cursor
  · rfl

theorem ignore (read : Renumbers place f counted numbered) :
    Renumbers place id counted.ignore numbered.ignore :=
  read.bind fun _ => .pure rfl

theorem withSteps {reads : Nat → Read α} {others : Nat → Read β}
    (each : ∀ n, Renumbers place f (reads n) (others n)) :
    Renumbers place f (Grammar.withSteps reads) (Grammar.withSteps others) :=
  fun cursor => each cursor.steps cursor

theorem takeKind (kind : Kind) (what : Expected) :
    Renumbers place (Name.relocate place) (Read.takeKind kind what)
      (@Read.takeKind (.ofPlaces place) kind what) :=
  .branch take (fail what)

theorem takeName (what : Expected) :
    Renumbers place (Name.relocate place) (Read.takeName what)
      (@Read.takeName (.ofPlaces place) what) :=
  .branch take (fail what)

theorem separated {closer : Kind} {what : Expected} {item : α} {more : Read (List α)}
    {others : Read (List β)} (rest : Renumbers place (List.map f) more others) :
    Renumbers place (List.map f) (Grammar.separated closer what item more)
      (@separated (.ofPlaces place) β closer what (f item) others) :=
  .branch (take.bind fun _ => rest.bind fun _ => .pure rfl)
    (.branch (take.bind fun _ => .pure rfl) (miss what))

theorem qualified {segment : Segment} {more others : Read (List Segment)}
    (rest : Renumbers place (List.map (Segment.relocate place)) more others) :
    Renumbers place (List.map (Segment.relocate place)) (Grammar.qualified segment more)
      (@qualified (.ofPlaces place) (segment.relocate place) others) :=
  .branch (take.bind fun _ => rest.bind fun _ => .pure rfl) (.pure rfl)

theorem appliedOr {name : Name} {args others : Read TypeArgs}
    (list : Renumbers place (TypeArgs.relocate place) args others) :
    Renumbers place (Segment.relocate place) (Grammar.appliedOr name args)
      (Grammar.appliedOr (name.relocate place) others) :=
  .branch (list.bind fun _ => .pure rfl) (.pure rfl)

theorem dimensions (n : Nat) :
    Renumbers place id (Grammar.dimensions n) (@dimensions (.ofPlaces place) n) := by
  induction n with
  | zero => exact stuck
  | succ n ih =>
    exact .branch (take.bind fun _ => take.bind fun _ => ih.bind fun _ => .pure rfl) (.pure rfl)

end Renumbers

section Types

variable {skip passes : Read Unit}

theorem typeAnnotations_renumber (skips : Renumbers place id skip passes) (n : Nat) :
    Renumbers place id (typeAnnotations skip n) (typeAnnotations passes n) := by
  induction n with
  | zero => exact .stuck
  | succ n ih => exact .branch (skips.bind fun _ => ih) (.pure rfl)

theorem parameterAnnotations_renumber (skips : Renumbers place id skip passes) (n : Nat) :
    Renumbers place id (parameterAnnotations skip n) (parameterAnnotations passes n) := by
  induction n with
  | zero => exact .stuck
  | succ n ih => exact .branch (skips.bind fun _ => ih) (.pure rfl)

-- What the readers of types give goes by places, if so many steps are left to them.
structure TypesRenumber (place : Nat → Nat) (skip passes : Read Unit) (n : Nat) : Prop where
  segments (diamond : Bool) : Renumbers place (List.map (Segment.relocate place))
    (typeSegments skip diamond n) (@typeSegments (.ofPlaces place) passes diamond n)
  ref (diamond dims : Bool) : Renumbers place (TypeRef.relocate place)
    (typeRef skip diamond dims n) (@typeRef (.ofPlaces place) passes diamond dims n)
  args (diamond : Bool) : Renumbers place (TypeArgs.relocate place)
    (typeArgs skip diamond n) (@typeArgs (.ofPlaces place) passes diamond n)
  list : Renumbers place (List.map (TypeArg.relocate place))
    (typeArgList skip n) (@typeArgList (.ofPlaces place) passes n)
  arg : Renumbers place (TypeArg.relocate place)
    (typeArg skip n) (@typeArg (.ofPlaces place) passes n)
  bound (start : Nat) (kind : BoundKind) : Renumbers place (TypeArg.relocate place)
    (boundedArg skip start kind n) (@boundedArg (.ofPlaces place) passes (place start) kind n)

namespace TypesRenumber

variable {n : Nat}

theorem segments_step (types : TypesRenumber place skip passes n) (diamond : Bool) :
    Renumbers place (List.map (Segment.relocate place)) (typeSegments skip diamond (n + 1))
      (@typeSegments (.ofPlaces place) passes diamond (n + 1)) := by
  simp only [typeSegments]
  exact .bind .take fun name => .bind (.appliedOr (types.args diamond)) fun segment =>
    .qualified (types.segments diamond)

theorem ref_step (types : TypesRenumber place skip passes n) (skips : Renumbers place id skip passes)
    (diamond dims : Bool) :
    Renumbers place (TypeRef.relocate place) (typeRef skip diamond dims (n + 1))
      (@typeRef (.ofPlaces place) passes diamond dims (n + 1)) := by
  simp only [typeRef]
  refine .bind (typeAnnotations_renumber skips n) fun _ => .branch ?_ (.miss .typeName)
  refine .bind .index fun start => .bind (types.segments diamond) fun segments => ?_
  have behind (count : Nat) : Renumbers place (TypeRef.relocate place)
      (do let stop ← Read.past; Pure.pure (.mk ⟨start, stop⟩ segments count))
      (do
        let stop ← @Read.past (.ofPlaces place)
        Pure.pure (.mk ⟨place start, stop⟩ (segments.map (Segment.relocate place)) count)) :=
    .bind .past fun stop => .pure (TypeRef.relocate_mk ⟨start, stop⟩ segments count).symm
  exact .ite (.bind (.dimensions n) behind) (.bind (.pure rfl) behind)

theorem args_step (types : TypesRenumber place skip passes n) (diamond : Bool) :
    Renumbers place (TypeArgs.relocate place) (typeArgs skip diamond (n + 1))
      (@typeArgs (.ofPlaces place) passes diamond (n + 1)) := by
  simp only [typeArgs]
  refine .whole (.bind .take fun opener => .bind (.branch ?_ types.list) fun args => ?_)
  · exact .ite (.bind .take fun _ => .pure rfl) (.miss .typeArguments)
  · exact .bind .past fun stop => .pure (TypeArgs.relocate_mk ⟨opener.index, stop⟩ args).symm

theorem list_step (types : TypesRenumber place skip passes n) :
    Renumbers place (List.map (TypeArg.relocate place)) (typeArgList skip (n + 1))
      (@typeArgList (.ofPlaces place) passes (n + 1)) := by
  simp only [typeArgList]
  exact types.arg.bind fun arg => .separated types.list

theorem arg_step (types : TypesRenumber place skip passes n) :
    Renumbers place (TypeArg.relocate place) (typeArg skip (n + 1))
      (@typeArg (.ofPlaces place) passes (n + 1)) := by
  simp only [typeArg]
  refine .branch (.bind .take fun mark => ?_) ((types.ref false true).bind fun ref => .pure rfl)
  exact .branch (types.bound mark.index .upper) (.branch (types.bound mark.index .lower)
    (.bind .past fun stop => .pure rfl))

theorem bound_step (types : TypesRenumber place skip passes n) (start : Nat) (kind : BoundKind) :
    Renumbers place (TypeArg.relocate place) (boundedArg skip start kind (n + 1))
      (@boundedArg (.ofPlaces place) passes (place start) kind (n + 1)) := by
  simp only [boundedArg]
  exact .bind .take fun _ => (types.ref false true).bind fun ref => .bind .past fun stop => .pure rfl

end TypesRenumber

theorem types_renumber (skips : Renumbers place id skip passes) (n : Nat) :
    TypesRenumber place skip passes n := by
  induction n with
  | zero =>
    constructor <;> intros
    · simp only [typeSegments]; exact .stuck
    · simp only [typeRef]; exact .stuck
    · simp only [typeArgs]; exact .stuck
    · simp only [typeArgList]; exact .stuck
    · simp only [typeArg]; exact .stuck
    · simp only [boundedArg]; exact .stuck
  | succ n ih =>
    exact ⟨ih.segments_step, ih.ref_step skips, ih.args_step, ih.list_step, ih.arg_step, ih.bound_step⟩

theorem typeRef_renumber (skips : Renumbers place id skip passes) (diamond dims : Bool) :
    Renumbers place (TypeRef.relocate place) (withSteps (typeRef skip diamond dims))
      (withSteps (@typeRef (.ofPlaces place) passes diamond dims)) :=
  .withSteps fun n => (types_renumber skips n).ref diamond dims

theorem typeArgs_renumber (skips : Renumbers place id skip passes) (diamond : Bool) :
    Renumbers place (TypeArgs.relocate place) (withSteps (typeArgs skip diamond))
      (withSteps (@typeArgs (.ofPlaces place) passes diamond)) :=
  .withSteps fun n => (types_renumber skips n).args diamond

theorem typeList_renumber (skips : Renumbers place id skip passes) (separator : Kind) (n : Nat) :
    Renumbers place (List.map (TypeRef.relocate place)) (typeList skip separator n)
      (@typeList (.ofPlaces place) passes separator n) := by
  induction n with
  | zero => exact .stuck
  | succ n ih =>
    refine (typeRef_renumber skips false true).bind fun ref => .branch ?_ (.pure rfl)
    exact .bind .take fun _ => ih.bind fun refs => .pure rfl

theorem typeParam_renumber (skips : Renumbers place id skip passes) :
    Renumbers place (TypeParam.relocate place) (typeParam skip) (@typeParam (.ofPlaces place) passes) := by
  refine .bind (.withSteps (parameterAnnotations_renumber skips)) fun _ => .branch ?_ (.miss _)
  refine .bind .index fun start => .bind .take fun name =>
    .bind (f := List.map (TypeRef.relocate place)) ?_ ?_
  · exact .branch (.bind .take fun _ => .withSteps (typeList_renumber skips .amp)) (.pure rfl)
  · exact fun bounds => .bind .past fun stop => .pure rfl

theorem typeParamList_renumber (skips : Renumbers place id skip passes) (n : Nat) :
    Renumbers place (List.map (TypeParam.relocate place)) (typeParamList skip n)
      (@typeParamList (.ofPlaces place) passes n) := by
  induction n with
  | zero => exact .stuck
  | succ n ih => exact (typeParam_renumber skips).bind fun param => .separated ih

theorem typeParams_renumber (skips : Renumbers place id skip passes) :
    Renumbers place (TypeParams.relocate place) (typeParams skip)
      (@typeParams (.ofPlaces place) passes) := by
  refine .part (.bind .take fun opener => ?_)
  exact .bind (.withSteps (typeParamList_renumber skips)) fun params => .bind .past fun stop => .pure rfl

theorem expressionArgs_renumber (skips : Renumbers place id skip passes) :
    Renumbers place (TypeArgs.relocate place) (expressionArgs skip)
      (@expressionArgs (.ofPlaces place) passes) :=
  .whole ((typeArgs_renumber skips false).bind fun _ => .branch (.pure rfl) (.miss _))

theorem chainSegment_renumber (skips : Renumbers place id skip passes) (name : Name) :
    Renumbers place (Segment.relocate place) (chainSegment skip name)
      (@chainSegment (.ofPlaces place) passes (name.relocate place)) := by
  refine (Renumbers.optional (.appliedOr (expressionArgs_renumber skips))).bind fun segment => .pure ?_
  cases segment <;> rfl

theorem chainSegments_renumber (skips : Renumbers place id skip passes) (n : Nat) :
    Renumbers place (List.map (Segment.relocate place)) (chainSegments skip n)
      (@chainSegments (.ofPlaces place) passes n) := by
  induction n with
  | zero => exact .stuck
  | succ n ih =>
    exact .bind .take fun name => (chainSegment_renumber skips name).bind fun segment => .qualified ih

theorem chain_renumber (skips : Renumbers place id skip passes) :
    Renumbers place (Option.map (TypeRef.relocate place)) (chain skip)
      (@chain (.ofPlaces place) passes) := by
  refine .bind .index fun start => .bind (.withSteps (chainSegments_renumber skips)) fun segments =>
    .bind .past fun stop => .pure ?_
  have same : (segments.map (Segment.relocate place)).any Segment.isRelevant =
      segments.any Segment.isRelevant := by
    simp [List.any_map, Function.comp_def, Segment.isRelevant_relocate]
  rw [same]
  split
  · exact congrArg some (TypeRef.relocate_mk ⟨start, stop⟩ segments 0).symm
  · rfl

theorem witness_renumber (skips : Renumbers place id skip passes) :
    Renumbers place (Member.relocate place) (witness skip) (@witness (.ofPlaces place) passes) := by
  refine .bind .take fun _ => .bind (.strict (typeArgs_renumber skips false)) fun args =>
    .bind (.takeKind _ _) fun method => .pure ?_
  rw [TypeArgs.range_relocate, Member.relocate]
  rfl

end Types

section Members

theorem qualifiers_renumber (n : Nat) :
    Renumbers place id (qualifiers n) (@qualifiers (.ofPlaces place) n) := by
  induction n with
  | zero => exact .stuck
  | succ n ih => exact .branch (.bind .take fun _ => .bind .take fun _ => ih) (.pure rfl)

theorem throughSemicolon_renumber (n : Nat) :
    Renumbers place id (throughSemicolon n) (@throughSemicolon (.ofPlaces place) n) := by
  induction n with
  | zero => exact .stuck
  | succ n ih =>
    exact .branch (.fail _) (.branch (.bind .take fun _ => .pure rfl) (.bind .take fun _ => ih))

theorem importedNames_renumber (n : Nat) :
    Renumbers place (Prod.map (List.map (Segment.relocate place)) id) (importedNames n)
      (@importedNames (.ofPlaces place) n) := by
  induction n with
  | zero => exact .stuck
  | succ n ih =>
    refine .branch (.bind .take fun _ => .branch ?_ ?_) (.pure rfl)
    · exact .bind .take fun _ => .pure rfl
    · exact .bind (.takeName _) fun name => ih.bind fun _ => .pure rfl

theorem segmentsEnd_relocate (segment : Segment) (more : List Segment) :
    segmentsEnd ((segment :: more).map (Segment.relocate place)) =
      place (segmentsEnd (segment :: more) - 1) + 1 := by
  rw [segmentsEnd, segmentsEnd, List.getLast?_map, List.getLast?_eq_some_getLast (List.cons_ne_nil _ _),
    Option.map_some]
  change (Segment.relocate place _).name.index + 1 = place (Segment.name _).index + 1
  rw [Segment.name_relocate, Name.relocate]

theorem importDecl_renumber :
    Renumbers place (Member.relocate place) importDecl (@importDecl (.ofPlaces place)) := by
  refine .bind .take fun keyword => .bind (f := id) ?_ fun isStatic => .bind .index fun first =>
    .bind (.takeName _) fun name => .bind (.withSteps importedNames_renumber) fun (more, onDemand) =>
    .bind (.takeKind _ _) fun _ => .bind .past fun stop => .pure ?_
  · exact .branch (.bind .take fun _ => .pure rfl) (.pure rfl)
  · rw [Member.relocate, TypeRef.relocate_mk]
    exact congrArg (fun last => Member.importDecl _ (.mk ⟨place first, last⟩ _ 0) isStatic onDemand)
      (segmentsEnd_relocate (.plain name) more)

theorem supertypeClauses_renumber {skip passes : Read Unit} (skips : Renumbers place id skip passes)
    (n : Nat) :
    Renumbers place (List.map (TypeRef.relocate place)) (supertypeClauses skip n)
      (@supertypeClauses (.ofPlaces place) passes n) := by
  induction n with
  | zero => exact .stuck
  | succ n ih =>
    refine .branch (.bind .take fun _ => ?_) (.pure rfl)
    refine .bind (.strict (.withSteps (typeList_renumber skips .comma))) fun refs => ih.bind fun more => ?_
    exact .pure List.map_append.symm

theorem Extent.template_relocate (extent : Extent) :
    extent.relocate place = .template ↔ extent = .template := by
  cases extent <;> simp [Extent.relocate]

theorem Extent.member_relocate (extent : Extent) :
    extent.relocate place = .member ↔ extent = .member := by
  cases extent <;> simp [Extent.relocate]

theorem atEnd_renumber (extent : Extent) :
    Renumbers place (List.map (Member.relocate place)) (atEnd extent)
      (@atEnd (.ofPlaces place) (extent.relocate place)) := by
  cases extent with
  | template => exact .pure rfl
  | member => exact .fail _
  | closing closer opener => exact .unbalanced opener

def Item.relocate (place : Nat → Nat) : Item → Item := Prod.map (List.map (Member.relocate place)) id

theorem passed_renumber (after : Before) :
    Renumbers place (Item.relocate place) (passed after) (@passed (.ofPlaces place) after) :=
  .bind .take fun _ => .pure rfl

theorem closed_renumber (kind : Kind) (extent : Extent) :
    Renumbers place (Item.relocate place) (closed kind extent)
      (@closed (.ofPlaces place) kind (extent.relocate place)) := by
  refine .bind .index fun here => ?_
  cases extent with
  | template | member => exact .unbalanced here
  | closing closer opener => exact .ite (.bind .take fun _ => .pure rfl) (.unbalanced here)

theorem semicolon_renumber (extent : Extent) :
    Renumbers place (Item.relocate place) (semicolon extent)
      (@semicolon (.ofPlaces place) (extent.relocate place)) := by
  refine .bind .take fun _ => .pure ?_
  simp only [Extent.member_relocate]
  rfl

-- What the readers of members give goes by places, if so many steps are left to them.
structure MembersRenumber (place : Nat → Nat) (n : Nat) : Prop where
  scans (extent : Extent) (before : Before) : Renumbers place (List.map (Member.relocate place))
    (scan n extent before) (@scan (.ofPlaces place) n (extent.relocate place) before)
  items (extent : Extent) (before : Before) : Renumbers place (Item.relocate place)
    (item n extent before) (@item (.ofPlaces place) n (extent.relocate place) before)
  words (extent : Extent) (before : Before) (lexeme : Lexeme) : Renumbers place (Item.relocate place)
    (wordItem n extent before lexeme)
    (@wordItem (.ofPlaces place) n (extent.relocate place) before lexeme)
  generics : Renumbers place (Item.relocate place)
    (genericMember n) (@genericMember (.ofPlaces place) n)
  annotations : Renumbers place (List.map (Member.relocate place))
    (annotationUse n) (@annotationUse (.ofPlaces place) n)
  decls : Renumbers place (Member.relocate place)
    (typeDecl n) (@typeDecl (.ofPlaces place) n)
  creations : Renumbers place (List.map (Member.relocate place))
    (creation n) (@creation (.ofPlaces place) n)

namespace MembersRenumber

variable {n : Nat}

theorem skips (members : MembersRenumber place n) :
    Renumbers place id (annotationUse n).ignore (@annotationUse (.ofPlaces place) n).ignore :=
  members.annotations.ignore

theorem enclosed (members : MembersRenumber place n) (closer : Kind) :
    Renumbers place (List.map (Member.relocate place)) (enclosed (Grammar.scan n) closer)
      (@enclosed (.ofPlaces place) (@scan (.ofPlaces place) n) closer) :=
  .bind .take fun opener => members.scans (.closing closer opener.index) .boundary

theorem enclosedIf (members : MembersRenumber place n) (opener closer : Kind) :
    Renumbers place (List.map (Member.relocate place)) (enclosedIf (Grammar.scan n) opener closer)
      (@enclosedIf (.ofPlaces place) (@scan (.ofPlaces place) n) opener closer) :=
  .branch (members.enclosed closer) (.pure rfl)

theorem scan_step (members : MembersRenumber place n) (extent : Extent) (before : Before) :
    Renumbers place (List.map (Member.relocate place)) (Grammar.scan (n + 1) extent before)
      (@scan (.ofPlaces place) (n + 1) (extent.relocate place) before) := by
  simp only [Grammar.scan]
  refine .branch (atEnd_renumber extent) ((members.items extent before).bind fun (found, after) => ?_)
  cases after with
  | none => exact .pure rfl
  | some after =>
    exact (members.scans extent after).bind fun more => .pure List.map_append.symm

theorem item_step (members : MembersRenumber place n) (extent : Extent) (before : Before) :
    Renumbers place (Item.relocate place) (Grammar.item (n + 1) extent before)
      (@item (.ofPlaces place) (n + 1) (extent.relocate place) before) := by
  simp only [Grammar.item]
  refine .inspect fun lexeme => ?_
  cases lexeme.kind
  case rpar | rsqb | rbrace => exact closed_renumber _ extent
  case lpar | lsqb => exact (members.enclosed _).bind fun _ => .pure rfl
  case lbrace =>
    refine (members.enclosed _).bind fun _ => .pure ?_
    simp only [Extent.member_relocate]
    rfl
  case semi => exact semicolon_renumber extent
  case atSign =>
    exact .branch (members.decls.bind fun _ => .pure rfl)
      (members.annotations.bind fun _ => .pure rfl)
  case ident => exact members.words extent before lexeme
  case dot =>
    exact .branch ((witness_renumber members.skips).bind fun _ => .pure rfl) (passed_renumber .dot)
  case lt => exact .ite members.generics (passed_renumber .other)
  all_goals exact passed_renumber .other

theorem wordItem_step (members : MembersRenumber place n) (extent : Extent) (before : Before)
    (lexeme : Lexeme) :
    Renumbers place (Item.relocate place) (Grammar.wordItem (n + 1) extent before lexeme)
      (@wordItem (.ofPlaces place) (n + 1) (extent.relocate place) before lexeme) := by
  simp only [Grammar.wordItem, Extent.template_relocate]
  refine .ite (importDecl_renumber.bind fun _ => .pure rfl) (.ite ?_ (.branch ?_ (.ite ?_ (.ite ?_ ?_))))
  · exact .bind (.withSteps throughSemicolon_renumber) fun _ => .pure rfl
  · exact members.decls.bind fun _ => .pure rfl
  · exact members.creations.bind fun _ => .pure rfl
  · exact passed_renumber (afterKeyword lexeme)
  · refine (chain_renumber members.skips).bind fun ref => .pure ?_
    cases ref <;> rfl

theorem genericMember_step (members : MembersRenumber place n) :
    Renumbers place (Item.relocate place) (Grammar.genericMember (n + 1))
      (@genericMember (.ofPlaces place) (n + 1)) := by
  simp only [Grammar.genericMember]
  refine (Renumbers.optional (typeParams_renumber members.skips)).bind fun params => ?_
  cases params with
  | none => exact passed_renumber .other
  | some params =>
    refine (members.scans .member .boundary).bind fun found => .bind .past fun stop => .pure ?_
    simp [Item.relocate, Member.relocate, relocateMembers_eq, TypeParams.relocate, Range.relocate]

theorem annotationUse_step (members : MembersRenumber place n) :
    Renumbers place (List.map (Member.relocate place)) (Grammar.annotationUse (n + 1))
      (@annotationUse (.ofPlaces place) (n + 1)) := by
  simp only [Grammar.annotationUse]
  exact .bind .take fun _ => .bind (.takeName _) fun _ => .bind (.withSteps qualifiers_renumber) fun _ =>
    members.enclosedIf .lpar .rpar

theorem typeDecl_step (members : MembersRenumber place n) :
    Renumbers place (Member.relocate place) (Grammar.typeDecl (n + 1))
      (@typeDecl (.ofPlaces place) (n + 1)) := by
  simp only [Grammar.typeDecl]
  refine .bind .index fun start => .bind (f := id) ?_ fun _ => .bind .take fun keyword =>
    .bind (.takeName _) fun name => .bind (f := Option.map (TypeParams.relocate place)) ?_ fun params =>
    (members.enclosedIf .lpar .rpar).bind fun header =>
    .bind (.withSteps (supertypeClauses_renumber members.skips)) fun supertypes =>
    .bind (f := id) ?_ fun _ => (members.enclosed .rbrace).bind fun body =>
    .bind .past fun stop => .pure ?_
  · exact .branch (.bind .take fun _ => .pure rfl) (.pure rfl)
  · exact .branch (.bind (.strict (typeParams_renumber members.skips)) fun _ => .pure rfl) (.pure rfl)
  · exact .branch (.pure rfl) (.fail _)
  · simp [Member.relocate, relocateMembers_eq, Range.relocate]

theorem creation_step (members : MembersRenumber place n) :
    Renumbers place (List.map (Member.relocate place)) (Grammar.creation (n + 1))
      (@creation (.ofPlaces place) (n + 1)) := by
  simp only [Grammar.creation]
  refine .bind .take fun keyword => .bind (f := Option.map (TypeArgs.relocate place)) ?_ fun args =>
    .branch (.branch (.bind .take fun _ => .pure rfl) ?_) (.pure rfl)
  · exact .branch (.bind (.strict (typeArgs_renumber members.skips false)) fun _ => .pure rfl) (.pure rfl)
  · refine .bind (.strict (typeRef_renumber members.skips true false)) fun type =>
      .bind (f := List.map (Member.relocate place)) ?_ fun found => .bind .past fun stop => .pure ?_
    · refine .branch ((members.enclosed .rpar).bind fun _ => ?_) (.pure rfl)
      exact (members.enclosedIf .lbrace .rbrace).bind fun _ => .pure List.map_append.symm
    · simp [Member.relocate, relocateMembers_eq, Range.relocate, Name.relocate]

end MembersRenumber

theorem membersRenumber (n : Nat) : MembersRenumber place n := by
  induction n with
  | zero =>
    constructor <;> intros
    · simp only [scan]; exact .stuck
    · simp only [item]; exact .stuck
    · simp only [wordItem]; exact .stuck
    · simp only [genericMember]; exact .stuck
    · simp only [annotationUse]; exact .stuck
    · simp only [typeDecl]; exact .stuck
    · simp only [creation]; exact .stuck
  | succ n ih =>
    exact ⟨ih.scan_step, ih.item_step, ih.wordItem_step, ih.genericMember_step, ih.annotationUse_step,
      ih.typeDecl_step, ih.creation_step⟩

-- What a parse reads does not depend on the numbers, and all that it gives goes by them.
theorem members_renumber (lexemes : List Lexeme) :
    @members (.ofPlaces place) lexemes =
      (members lexemes).relocate place (List.map (Member.relocate place)) :=
  (membersRenumber _).scans .template .boundary ⟨0, lexemes⟩

theorem conclude_renumber (outcome : Outcome (List Member)) :
    @conclude (.ofPlaces place) (outcome.relocate place (List.map (Member.relocate place))) =
      match conclude outcome with
      | .error failure => .error (failure.relocate place)
      | .ok found => .ok (relocateMembers place found) := by
  cases outcome with
  | done found next => exact congrArg Except.ok (relocateMembers_eq found).symm
  | miss what missed => exact congrArg Except.error (Renumbers.failure missed what)
  | fail | stuck => rfl

end Members

end Grammar

end Specializer
