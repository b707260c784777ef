import CodeMoniker.ParentWalks
import CodeMoniker.RuleExpr

/-!
# What a rule sees of a file

A rule is evaluated in the graph and the text of one file (`EvalCtx`). The graph is `Closed` :
its sources and parents are definitions and its parents form no cycle, so looking one up never
fails and climbing to the ancestors comes to an end. Built graphs are closed
(`CodeGraph.Consistent.closed`).

An expression stands in a `Scope` : a definition, a reference, a node of the syntax tree, a
segment, a definition of another file, or a pair of items. Attributes are resolved against
the record of the scope (`resolveDefLhs`, `resolveRefLhs`), and a domain lists the items that
belong to it (`domainItems`, `refDomainItems`).
-/

namespace CodeMoniker

open ByteCodec

/-! ## Texts -/

def fromUtf8 (bytes : Bytes) : Option String := (Utf8.decode? bytes).map String.ofList

/-- The second byte may follow the first in a character of three or four bytes. -/
def continues (first second : UInt8) : Bool :=
  if first = 0xE0 then 0xA0 ≤ second && second ≤ 0xBF
  else if first = 0xED then 0x80 ≤ second && second ≤ 0x9F
  else if first = 0xF0 then 0x90 ≤ second && second ≤ 0xBF
  else if first = 0xF4 then 0x80 ≤ second && second ≤ 0x8F
  else 0xE1 ≤ first && first ≤ 0xF3 && 0x80 ≤ second && second ≤ 0xBF

/-- How many bytes stand for one replacement character, where no character can be read. -/
def invalidLength : Bytes → ℕ
  | b₀ :: b₁ :: rest =>
    if continues b₀ b₁ then
      match rest with
      | b₂ :: _ => if 0xF0 ≤ b₀ ∧ 0x80 ≤ b₂ ∧ b₂ ≤ 0xBF then 3 else 2
      | [] => 2
    else 1
  | _ => 1

/-- Every step reads at least one byte, so the length of the input is enough. -/
def lossyChars : ℕ → Bytes → List Char
  | _, [] => []
  | 0, _ :: _ => []
  | n + 1, b :: bs =>
    match (b :: bs).toByteArray.utf8DecodeChar? 0 with
    | some c => c :: lossyChars n ((b :: bs).drop c.utf8Size)
    | none => '\uFFFD' :: lossyChars n ((b :: bs).drop (invalidLength (b :: bs)))

def fromUtf8Lossy (bytes : Bytes) : String := String.ofList (lossyChars bytes.length bytes)

def isCharBoundary (source : Bytes) (i : ℕ) : Bool :=
  match source[i]? with
  | some b => b < 0x80 || 0xC0 ≤ b
  | none => i = source.length

/-- `source.get(start..stop)`. -/
def sourceGet (source : Bytes) (start stop : ℕ) : Option String :=
  if start ≤ stop ∧ isCharBoundary source start ∧ isCharBoundary source stop then
    fromUtf8 ((source.drop start).take (stop - start))
  else none

/-- The lines of the first and of the last byte, counted from one. -/
def lineRange (source : Bytes) (start stop : ℕ) : ℕ × ℕ :=
  let s := min start source.length
  let e := max (min stop source.length) s
  let last := if s < e then e - 1 else s
  (1 + (source.take s).count 0x0A, 1 + (source.take last).count 0x0A)

/-! ## The context -/

/-- Definitions are found where sources and parents point, and parents form no cycle. -/
structure CodeGraph.Closed (g : CodeGraph) : Prop where
  sources : ∀ r ∈ g.refs, r.source < g.defs.length
  parents : g.ParentsInRange
  acyclic : g.ParentsAcyclic

theorem CodeGraph.Consistent.closed {g : CodeGraph} (h : g.Consistent) : g.Closed where
  sources := h.sources
  parents := by
    intro i p hp
    obtain ⟨d, hd, hparent⟩ := Option.bind_eq_some_iff.mp hp
    by_cases hi : i = 0
    · subst hi
      obtain ⟨root, hroot, hnone⟩ := h.root
      obtain rfl := Option.some.inj (hd.symm.trans hroot)
      rw [hnone] at hparent
      cases hparent
    · obtain ⟨p', _, hp', hlt, -⟩ := h.owned i d hd hi
      obtain rfl := Option.some.inj (hparent.symm.trans hp')
      exact hlt.trans (parentOf_lt hp)
  acyclic := h.acyclic

/-- A named node of the syntax tree. `parentKind` is the kind of the nearest named node
above it. -/
structure AstNode where
  kind : String
  parentKind : Option String
  startByte : ℕ
  endByte : ℕ
  startRow : ℕ
  endRow : ℕ
  endColumn : ℕ

inductive AstScopeError where
  | documentUnavailable
  | parseErrors
  | injectionsUnsupported
  | missingSymbolRange
  | noExactScopeNode
  | traversalLimitExceeded
  deriving DecidableEq

/-- What a check of a whole project knows of the other files. -/
structure RequirementResolver where
  resolves : String → DefRecord → Bool
  descendantDefs : DefRecord → Domain → List DefRecord

/-- The file under evaluation. The syntax tree, the aggregates over floating-point numbers, the
named metrics, the layout policies and the regular expressions are taken as they come : an
evaluation reads nothing else of them. -/
structure EvalCtx where
  graph : CodeGraph
  closed : graph.Closed
  source : Bytes
  configSection : String
  requirements : Option RequirementResolver
  astDomainItems : ℕ → Except AstScopeError (List AstNode)
  aggregate : AggregateKind → List ℚ → Option ℚ → Option ℚ
  normalizedEntropy : List Value → Option ℚ
  metric : MetricKind → ℕ → ℕ
  verticalLayout : VerticalLayout → ℕ → NodeOutcome
  regexNew : String → Option Regex

namespace EvalCtx

abbrev DefIdx (ctx : EvalCtx) := Fin ctx.graph.defs.length

abbrev RefIdx (ctx : EvalCtx) := Fin ctx.graph.refs.length

variable (ctx : EvalCtx) (i : ctx.DefIdx)

def defAt : DefRecord := ctx.graph.defs.get i

def refAt (r : ctx.RefIdx) : RefRecord := ctx.graph.refs.get r

def refs : List ctx.RefIdx := List.finRange ctx.graph.refs.length

def sourceOf (r : ctx.RefIdx) : ctx.DefIdx :=
  ⟨(ctx.refAt r).source, ctx.closed.sources _ (List.get_mem _ r)⟩

def childrenByParent : List ctx.DefIdx :=
  (List.finRange ctx.graph.defs.length).filter fun c => (ctx.defAt c).parent = some i.1

def outRefsBySource : List ctx.RefIdx :=
  ctx.refs.filter fun r => (ctx.refAt r).source = i

def inRefsByTarget (target : Moniker) : List ctx.RefIdx :=
  ctx.refs.filter fun r => (ctx.refAt r).target.bytes = target.bytes

/-- The table counts the children of a definition that have a kind. -/
def parentCounts (kind : Bytes) : ℕ :=
  (ctx.graph.defs.filter fun d => d.parent = some i.1 ∧ d.kind = kind).length

theorem parentOf_eq : ctx.graph.parentOf i = (ctx.defAt i).parent := by
  simp [CodeGraph.parentOf, CodeGraph.defAt, defAt]

/-- The definitions above a definition, the nearest first. -/
def ancestors (i : ctx.DefIdx) : List ctx.DefIdx :=
  match h : (ctx.defAt i).parent with
  | none => []
  | some p =>
    let parent : ctx.DefIdx := ⟨p, ctx.closed.parents i p ((ctx.parentOf_eq i).trans h)⟩
    parent :: ancestors parent
termination_by (ctx.closed.acyclic.wellFounded ctx.closed.parents).wrap i.1
decreasing_by exact (ctx.parentOf_eq i).trans h

/-- The last definition of a moniker. -/
def localDefIndex (m : Moniker) : Option ctx.DefIdx :=
  (List.finRange ctx.graph.defs.length).reverse.find? fun i =>
    (ctx.defAt i).moniker.bytes = m.bytes

/-- The first definition of a moniker. -/
def resolveLocalDef (m : Moniker) : Option DefRecord :=
  ctx.graph.defs.find? fun d => d.moniker = m

end EvalCtx

/-! ## Attributes -/

variable (m : Moniker)

def nameOf : Option String :=
  m.segments.getLast?.bind fun s => fromUtf8 (bareCallableName s.name)

def firstSegmentName (kind : Bytes) : String :=
  match m.segments.find? fun s => s.kind = kind with
  | some s => (fromUtf8 s.name).getD ""
  | none => ""

def lastSegmentKind : Option String :=
  m.segments.getLast?.bind fun s => fromUtf8 s.kind

def shapeOfKind (kind : Bytes) : Option Shape := (fromUtf8 kind).bind Shape.shapeOf

def shapeOfLastSegment : Option Shape :=
  m.segments.getLast?.bind fun s => shapeOfKind s.kind

/-- The segment before the last one. -/
def parentSegment : Option Segment :=
  if m.segments.length < 2 then none else m.segments[m.segments.length - 2]?

def DefRecord.shape (d : DefRecord) : Option Shape := shapeOfKind d.kind

def defHasShape (d : DefRecord) (shape : String) : Bool := d.shape.any fun s => s.asStr = shape

namespace EvalCtx

variable (ctx : EvalCtx)

def linesOf (position : Option Position) : Option (ℕ × ℕ) :=
  position.map fun p => lineRange ctx.source p.1.toNat p.2.toNat

def resolveDefLhs (lhs : Lhs) (d : DefRecord) : Option Value :=
  match lhs with
  | .signature | .sourceSignature => some (.str (fromUtf8Lossy d.signature))
  | .name | .sourceName => (nameOf d.moniker).map .str
  | .kind | .sourceKind => (fromUtf8 d.kind).map .str
  | .visibility | .sourceVisibility => (fromUtf8 d.visibility).map .str
  | .lines => (ctx.linesOf d.position).map fun l => .number ((l.2 - l.1 + 1 : ℕ) : ℚ)
  | .startLine => (ctx.linesOf d.position).map fun l => .number l.1
  | .endLine => (ctx.linesOf d.position).map fun l => .number l.2
  | .startByte => d.position.map fun p => .number p.1.toNat
  | .endByte => d.position.map fun p => .number p.2.toNat
  | .text =>
    d.position.map fun p => .str ((sourceGet ctx.source p.1.toNat p.2.toNat).getD "")
  | .moniker | .sourceMoniker => some (.moniker d.moniker)
  | .parentMoniker | .sourceParentMoniker => d.moniker.parent.map .moniker
  | .depth => some (.number d.moniker.segments.length)
  | .parentName =>
    (parentSegment d.moniker).bind fun s => (fromUtf8 (bareCallableName s.name)).map .str
  | .parentKind => (parentSegment d.moniker).bind fun s => (fromUtf8 s.kind).map .str
  | .parentShape =>
    (parentSegment d.moniker).bind fun s => (shapeOfKind s.kind).map fun k => .str k.asStr
  | .shape | .sourceShape => d.shape.map fun s => .str s.asStr
  | .srcset | .sourceSrcset =>
    some (.str (firstSegmentName d.moniker (byteString "srcset")))
  | .targetSignature | .confidence | .targetName | .targetKind | .targetShape
  | .targetVisibility | .targetSrcset | .targetMoniker | .targetParentMoniker | .segmentName
  | .segmentKind => none

def resolveRefLhs (lhs : Lhs) (r : ctx.RefIdx) : Option Value :=
  let record := ctx.refAt r
  let sourceDef := ctx.defAt (ctx.sourceOf r)
  match lhs with
  | .kind => (fromUtf8 record.kind).map .str
  | .confidence => (fromUtf8 record.confidence).map .str
  | .startLine => (ctx.linesOf record.position).map fun l => .number l.1
  | .endLine => (ctx.linesOf record.position).map fun l => .number l.2
  | .startByte => record.position.map fun p => .number p.1.toNat
  | .endByte => record.position.map fun p => .number p.2.toNat
  | .text =>
    record.position.bind fun p => (sourceGet ctx.source p.1.toNat p.2.toNat).map .str
  | .moniker | .sourceMoniker => some (.moniker sourceDef.moniker)
  | .parentMoniker | .sourceParentMoniker => sourceDef.moniker.parent.map .moniker
  | .parentName => (sourceDef.moniker.parent.bind nameOf).map .str
  | .parentKind => (sourceDef.moniker.parent.bind lastSegmentKind).map .str
  | .targetMoniker => some (.moniker record.target)
  | .targetParentMoniker => record.target.parent.map .moniker
  | .signature | .sourceSignature => some (.str (fromUtf8Lossy sourceDef.signature))
  | .targetSignature =>
    (ctx.localDefIndex record.target).map fun i => .str (fromUtf8Lossy (ctx.defAt i).signature)
  | .sourceName => (nameOf sourceDef.moniker).map .str
  | .targetName => (nameOf record.target).map .str
  | .sourceKind => (lastSegmentKind sourceDef.moniker).map .str
  | .targetKind => (lastSegmentKind record.target).map .str
  | .shape | .sourceShape => (shapeOfLastSegment sourceDef.moniker).map fun s => .str s.asStr
  | .targetShape => (shapeOfLastSegment record.target).map fun s => .str s.asStr
  | .srcset | .sourceSrcset =>
    some (.str (firstSegmentName sourceDef.moniker (byteString "srcset")))
  | .targetSrcset => some (.str (firstSegmentName record.target (byteString "srcset")))
  | .parentShape =>
    (parentSegment sourceDef.moniker).bind fun s =>
      (shapeOfKind s.kind).map fun k => .str k.asStr
  | .sourceVisibility => (fromUtf8 sourceDef.visibility).map .str
  | .targetVisibility =>
    (ctx.resolveLocalDef record.target).bind fun d => (fromUtf8 d.visibility).map .str
  | .name | .visibility | .lines | .depth | .segmentName | .segmentKind => none

/-- The attributes that need the text of the file. -/
def sourceDependentLhs (lhs : Lhs) : Bool :=
  lhs ∈ [Lhs.lines, .startLine, .endLine, .startByte, .endByte, .text]

/-- Attributes of a definition of another file. -/
def projectExternalLhs (lhs : Lhs) (d : DefRecord) : Option Value :=
  if sourceDependentLhs lhs then none else ctx.resolveDefLhs lhs d

end EvalCtx

namespace AstNode

def endLine (node : AstNode) : ℕ :=
  if node.endColumn = 0 ∧ node.startRow < node.endRow then node.endRow else node.endRow + 1

def projectLhsValue (node : AstNode) : Lhs → Option Value
  | .startByte => some (.number node.startByte)
  | .endByte => some (.number node.endByte)
  | .startLine => some (.number (node.startRow + 1))
  | .endLine => some (.number node.endLine)
  | .lines => some (.number ((node.endLine - node.startRow : ℕ) : ℚ))
  | _ => none

def projectString (node : AstNode) (source : Bytes) : Lhs → Option String
  | .kind => some node.kind
  | .text => sourceGet source node.startByte node.endByte
  | .parentKind => node.parentKind
  | _ => none

end AstNode

/-! ## Domains -/

/-- `external` is a definition that another file contributes. -/
inductive DomainItem (ctx : EvalCtx) where
  | ast (node : AstNode)
  | definition (idx : ctx.DefIdx)
  | external (d : DefRecord)
  | ref (r : ctx.RefIdx)
  | segment (s : Segment)

def defMatchesDomain : Domain → DefRecord → Bool
  | .children kind, d => d.kind = byteString kind
  | .childrenByShape shape, d => defHasShape d shape
  | .descendants inner, d => defMatchesDomain inner d
  | _, _ => false

/-- The loop over the definitions of other files. A definition that does not match still marks
its moniker as seen. -/
def externalDescendants (inner : Domain) : List Bytes → List DefRecord → List DefRecord
  | _, [] => []
  | seen, d :: rest =>
    if d.moniker.bytes ∈ seen then externalDescendants inner seen rest
    else if defMatchesDomain inner d then
      d :: externalDescendants inner (d.moniker.bytes :: seen) rest
    else externalDescendants inner (d.moniker.bytes :: seen) rest

namespace EvalCtx

variable (ctx : EvalCtx)

def descendantItems (inner : Domain) (i : ctx.DefIdx) : List (DomainItem ctx) :=
  let root := (ctx.defAt i).moniker
  let locals := (List.finRange ctx.graph.defs.length).filter fun c =>
    c ≠ i && root.isAncestorOf (ctx.defAt c).moniker && defMatchesDomain inner (ctx.defAt c)
  let seen := locals.map fun c => (ctx.defAt c).moniker.bytes
  let others := match ctx.requirements with
    | some resolver => resolver.descendantDefs (ctx.defAt i) inner
    | none => []
  locals.map .definition ++ (externalDescendants inner seen others).map .external

def ancestorRefItems (i : ctx.DefIdx) (outgoing : Bool) : List (DomainItem ctx) :=
  (ctx.ancestors i).flatMap fun a =>
    (if outgoing then ctx.outRefsBySource a else ctx.inRefsByTarget (ctx.defAt a).moniker).map .ref

def domainItems (domain : Domain) (i : ctx.DefIdx) : List (DomainItem ctx) :=
  match domain with
  | .ast | .pairs _ | .targetOutRefs | .targetInRefs => []
  | .children kind =>
    ((ctx.childrenByParent i).filter fun c => (ctx.defAt c).kind = byteString kind).map .definition
  | .childrenByShape shape =>
    ((ctx.childrenByParent i).filter fun c => defHasShape (ctx.defAt c) shape).map .definition
  | .descendants inner => ctx.descendantItems inner i
  | .segments => (ctx.defAt i).moniker.segments.map .segment
  | .outRefs | .sourceOutRefs => (ctx.outRefsBySource i).map .ref
  | .inRefs | .sourceInRefs => (ctx.inRefsByTarget (ctx.defAt i).moniker).map .ref
  | .sourceAncestorOutRefs => ctx.ancestorRefItems i true
  | .sourceAncestorInRefs => ctx.ancestorRefItems i false

def refDomainItems (domain : Domain) (r : ctx.RefIdx) : List (DomainItem ctx) :=
  match domain with
  | .targetOutRefs =>
    match ctx.localDefIndex (ctx.refAt r).target with
    | some i => (ctx.outRefsBySource i).map .ref
    | none => []
  | .targetInRefs =>
    if (ctx.localDefIndex (ctx.refAt r).target).isNone then []
    else (ctx.inRefsByTarget (ctx.refAt r).target).map .ref
  | domain => ctx.domainItems domain (ctx.sourceOf r)

/-- Definitions come in the order of their positions, after the items without one. -/
def positionKey (item : DomainItem ctx) : WithBot (ℕ ×ₗ ℕ) :=
  let position := match item with
    | .definition i => (ctx.defAt i).position
    | .external d => d.position
    | _ => none
  match position with
  | some p => ↑(toLex (p.1.toNat, p.2.toNat))
  | none => ⊥

def sortedDomainItems (domain : Domain) (i : ctx.DefIdx) : List (DomainItem ctx) :=
  StableSort.stableSort ctx.positionKey (ctx.domainItems domain i)

end EvalCtx

/-! ## Collections -/

def nestedDomain : String → Option Domain
  | "out_refs" => some .outRefs
  | "in_refs" => some .inRefs
  | _ => none

def defPathLhs : List String → Option Lhs
  | [] | ["self"] => some .moniker
  | ["signature"] => some .signature
  | ["name"] => some .name
  | ["kind"] => some .kind
  | ["shape"] => some .shape
  | ["visibility"] => some .visibility
  | ["srcset"] => some .srcset
  | ["lines"] => some .lines
  | ["start_line"] => some .startLine
  | ["end_line"] => some .endLine
  | ["start_byte"] => some .startByte
  | ["end_byte"] => some .endByte
  | ["depth"] => some .depth
  | ["parent"] => some .parentMoniker
  | ["parent", "name"] => some .parentName
  | ["parent", "kind"] => some .parentKind
  | ["parent", "shape"] => some .parentShape
  | _ => none

def refPathLhs : List String → Option Lhs
  | [] => some .targetMoniker
  | ["kind"] => some .kind
  | ["start_line"] => some .startLine
  | ["end_line"] => some .endLine
  | ["start_byte"] => some .startByte
  | ["end_byte"] => some .endByte
  | ["source"] => some .sourceMoniker
  | ["target"] => some .targetMoniker
  | ["source", "parent"] => some .sourceParentMoniker
  | ["target", "parent"] => some .targetParentMoniker
  | ["source", "signature"] => some .sourceSignature
  | ["source", "name"] => some .sourceName
  | ["source", "kind"] => some .sourceKind
  | ["source", "shape"] => some .sourceShape
  | ["source", "visibility"] => some .sourceVisibility
  | ["source", "srcset"] => some .sourceSrcset
  | ["target", "signature"] => some .targetSignature
  | ["target", "name"] => some .targetName
  | ["target", "kind"] => some .targetKind
  | ["target", "shape"] => some .targetShape
  | ["target", "visibility"] => some .targetVisibility
  | ["target", "srcset"] => some .targetSrcset
  | _ => none

def projectSegmentPath (s : Segment) : List String → Option Value
  | ["kind"] => (fromUtf8 s.kind).map .str
  | ["name"] => (fromUtf8 s.name).map .str
  | _ => none

namespace EvalCtx

variable (ctx : EvalCtx)

def projectDefPath (d : DefRecord) (path : List String) : Option Value :=
  (defPathLhs path).bind fun lhs => ctx.resolveDefLhs lhs d

def projectRefPath (r : ctx.RefIdx) (path : List String) : Option Value :=
  (refPathLhs path).bind fun lhs => ctx.resolveRefLhs lhs r

def projectItemPath (item : DomainItem ctx) (path : List String) : List Value :=
  match item, path with
  | .ast _, _ => []
  | .definition i, [] => (ctx.projectDefPath (ctx.defAt i) []).toList
  | .definition i, head :: tail =>
    match nestedDomain head with
    | some domain =>
      (ctx.domainItems domain i).flatMap fun nested => projectItemPath nested tail
    | none => (ctx.projectDefPath (ctx.defAt i) (head :: tail)).toList
  | .external d, path => (ctx.projectDefPath d path).toList
  | .ref r, path => (ctx.projectRefPath r path).toList
  | .segment s, path => (projectSegmentPath s path).toList
termination_by structural path

def collectProjection (domain : Domain) (path : List String) (i : ctx.DefIdx) : List Value :=
  (ctx.sortedDomainItems domain i).flatMap fun item => ctx.projectItemPath item path

def evalCollection (i self : ctx.DefIdx) : CollectionExpr → List Value
  | .projection p => ctx.collectProjection p.domain p.path (if p.current then self else i)
  | .pairProjection _ => []
  | .unique inner => uniqueValues (evalCollection i self inner)
  | .binary op left right => op.apply (evalCollection i self left) (evalCollection i self right)

def collectPairProjection (p : PairCollectionProjection) (a b : DomainItem ctx) : List Value :=
  match p.side, a, b with
  | .a, .definition i, _ | .b, _, .definition i => ctx.collectProjection p.domain p.path i
  | _, _, _ => []

def evalPairCollection (a b : DomainItem ctx) (i : ctx.DefIdx) : CollectionExpr → List Value
  | .projection p => ctx.collectProjection p.domain p.path i
  | .pairProjection p => ctx.collectPairProjection p a b
  | .unique inner => uniqueValues (evalPairCollection a b i inner)
  | .binary op left right =>
    op.apply (evalPairCollection a b i left) (evalPairCollection a b i right)

end EvalCtx

def collectionHasPairBinding : CollectionExpr → Bool
  | .projection _ => false
  | .pairProjection _ => true
  | .unique inner => collectionHasPairBinding inner
  | .binary _ left right => collectionHasPairBinding left || collectionHasPairBinding right

def compareCollections (op : Op) (left right : List Value) : Bool :=
  if op = .isPrefix then isPrefixOf left right else isSubset left right

/-- The first of the values that occur most often. -/
def modeValue (values : List Value) : Option Value :=
  values.eraseDups.foldl (fun best v =>
    match best with
    | some b => if values.count b < values.count v then some v else some b
    | none => some v) none

/-! ## Scopes -/

/-- Where an expression is evaluated. A filter remembers the item that opened the quantifier :
the definition `self`, or the reference `current`. -/
inductive Scope (ctx : EvalCtx) where
  | definition (idx self : ctx.DefIdx)
  | ref (r current : ctx.RefIdx)
  | ast (node : AstNode)
  | external (d : DefRecord)
  | segment (s : Segment)
  | pair (a b : DomainItem ctx) (idx self : ctx.DefIdx)

namespace DomainItem

variable {ctx : EvalCtx}

/-- The scope of a filter over the items of a definition. -/
def defScope (self : ctx.DefIdx) : DomainItem ctx → Scope ctx
  | .ast node => .ast node
  | .definition i => .definition i self
  | .external d => .external d
  | .ref r => .ref r r
  | .segment s => .segment s

/-- The scope of a filter over the items of a reference. -/
def refScope (current : ctx.RefIdx) : DomainItem ctx → Scope ctx
  | .ref r => .ref r current
  | item => item.defScope (ctx.sourceOf current)

def projectLhsValue : DomainItem ctx → Lhs → Option Value
  | .ast node, lhs => node.projectLhsValue lhs
  | .definition i, lhs => ctx.resolveDefLhs lhs (ctx.defAt i)
  | .external d, lhs => ctx.projectExternalLhs lhs d
  | .ref r, lhs => ctx.resolveRefLhs lhs r
  | .segment s, .kind | .segment s, .segmentKind => (fromUtf8 s.kind).map .str
  | .segment s, .name | .segment s, .segmentName => (fromUtf8 s.name).map .str
  | .segment _, _ => none

def projectItemValue : DomainItem ctx → Option Value
  | .definition i => ctx.resolveDefLhs .moniker (ctx.defAt i)
  | .external d => ctx.resolveDefLhs .moniker d
  | .ref r => ctx.resolveRefLhs .targetMoniker r
  | .ast _ | .segment _ => none

end DomainItem

/-- Each pair of positions once. -/
def pairIter {α : Type} : List α → List (α × α)
  | [] => []
  | a :: rest => rest.map (fun b => (a, b)) ++ pairIter rest

/-- The scopes over which `count` and the quantifiers range at a definition. The nodes of the
syntax tree may be unavailable. -/
def EvalCtx.defScopes (ctx : EvalCtx) (domain : Domain) (i self : ctx.DefIdx) :
    Except AstScopeError (List (Scope ctx)) :=
  match domain with
  | .ast => (ctx.astDomainItems i).map fun nodes => nodes.map .ast
  | .pairs inner =>
    .ok ((pairIter (ctx.domainItems inner i)).map fun p => .pair p.1 p.2 i self)
  | domain => .ok ((ctx.domainItems domain i).map (·.defScope self))

def EvalCtx.refScopes (ctx : EvalCtx) (domain : Domain) (r : ctx.RefIdx) : List (Scope ctx) :=
  (ctx.refDomainItems domain r).map (·.refScope r)

end CodeMoniker
