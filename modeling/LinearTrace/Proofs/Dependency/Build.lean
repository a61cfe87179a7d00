import LinearTrace.Proofs.Dependency.Mirror

/-!
# Building a graph

Operations are added one after the other.  Each access to memory is linked to the
earlier accesses that a scan finds: the latest write that may touch its item, and
for a write also the reads since.  The lemmas here say what one operation adds,
and from that what a finished graph contains.
-/

namespace LinearTrace

open List Option DependencyGraph Access

variable {latest : Access} {earlier : List Access} {first second : GraphBuilder}
  {rest : List Operation} {graph : DependencyGraph}

/-! ## Accesses -/

/-- The access that an operation at a position makes, if any. -/
def Access.ofOperation? (table : IndexTable) (position : Nat) (op : Operation) : Option Access :=
  if op.opcode.isArrayAccess || op.opcode.hasSideEffect then
    some ⟨position, !op.opcode.isLoad, MemoryRef.ofOperation? table op⟩
  else
    none

/-- The access at a position of a list of operations. -/
def accessAt (ops : List Operation) (position : Nat) : Option Access :=
  ops[position]?.bind (Access.ofOperation? (.ofOperations ops) position)

/-- The accesses before a position, the latest first. -/
def accessesBefore (ops : List Operation) : Nat → List Access
  | 0 => []
  | position + 1 => (accessAt ops position).toList ++ accessesBefore ops position

section

variable {ops : List Operation} {position : Nat} {access : Access}

theorem Access.node_of_ofOperation? {table : IndexTable} {op : Operation}
    (made : ofOperation? table position op = some access) : access.node = position := by
  unfold ofOperation? at made
  split at made
  · cases made
    rfl
  · cases made

theorem accessAt_node (found : accessAt ops position = some access) : access.node = position := by
  obtain ⟨op, _, made⟩ := bind_eq_some_iff.mp found
  exact node_of_ofOperation? made

theorem mem_accessesBefore : access ∈ accessesBefore ops position ↔
      access.node < position ∧ accessAt ops access.node = some access := by
  induction position with
  | zero => simp [accessesBefore]
  | succ position ih =>
    rw [accessesBefore, mem_append, ih, mem_toList]
    constructor
    · rintro (found | ⟨before, found⟩)
      · rw [accessAt_node found]
        exact ⟨Nat.lt_succ_self position, found⟩
      · exact ⟨Nat.lt_succ_of_lt before, found⟩
    · rintro ⟨before, found⟩
      rcases Nat.lt_succ_iff_lt_or_eq.mp before with earlier | same
      · exact .inr ⟨earlier, found⟩
      · rw [same] at found
        exact .inl found

theorem pairwise_accessesBefore (ops : List Operation) (position : Nat) :
    (accessesBefore ops position).Pairwise fun later earlier => earlier.node < later.node := by
  induction position with
  | zero => exact List.Pairwise.nil
  | succ position ih =>
    rw [accessesBefore, pairwise_append]
    refine ⟨?_, ih, ?_⟩
    · cases accessAt ops position <;> simp
    · intro later isLast earlier member
      rw [accessAt_node (mem_toList.mp isLast)]
      exact (mem_accessesBefore.mp member).1

/-! ## The scan for conflicts -/

section

variable {writes : Bool} {memory : Option MemoryRef} {accesses : List Access} {links : List Nat}

/-- The scan stops at a write that may touch the item, and takes up a read only for a write. -/
theorem Access.conflicts_cons (scanned : conflicts writes memory (latest :: earlier) = .ok links) :
    (latest.mayTouch memory = .ok true ∧ latest.writes ∧ links = [latest.node]) ∨
    (latest.writes = false ∧ writes ∧
      ∃ rest, conflicts writes memory earlier = .ok rest ∧ links = latest.node :: rest) ∨
    (latest.mayTouch memory = .ok false ∨ latest.writes = false ∧ writes = false) ∧
      conflicts writes memory earlier = .ok links := by
  rw [conflicts] at scanned
  obtain ⟨touches, touched, scanned⟩ := Fault.bind_eq_ok.mp scanned
  cases touches with
  | false => exact .inr (.inr ⟨.inl touched, scanned⟩)
  | true =>
    rw [if_pos rfl] at scanned
    cases isWrite : latest.writes with
    | true =>
      rw [isWrite, if_pos rfl] at scanned
      cases scanned
      exact .inl ⟨touched, rfl, rfl⟩
    | false =>
      rw [isWrite, if_neg Bool.false_ne_true] at scanned
      cases writes with
      | false => exact .inr (.inr ⟨.inr ⟨rfl, rfl⟩, scanned⟩)
      | true =>
        rw [if_pos rfl] at scanned
        obtain ⟨rest, scannedRest, scanned⟩ := Fault.bind_eq_ok.mp scanned
        cases scanned
        exact .inr (.inl ⟨rfl, rfl, rest, scannedRest, rfl⟩)

theorem Access.exists_of_mem_conflicts (scanned : conflicts writes memory accesses = .ok links)
    {node : Nat} (member : node ∈ links) : ∃ access ∈ accesses, access.node = node := by
  induction accesses generalizing links with
  | nil =>
    cases scanned
    cases member
  | cons latest earlier ih =>
    have fromEarlier : ∀ {rest}, conflicts writes memory earlier = .ok rest → node ∈ rest →
        ∃ access ∈ latest :: earlier, access.node = node := by
      intro rest scannedRest isRest
      obtain ⟨access, isEarlier, isNode⟩ := ih scannedRest isRest
      exact ⟨access, mem_cons_of_mem _ isEarlier, isNode⟩
    rcases conflicts_cons scanned with
      ⟨_, _, rfl⟩ | ⟨_, _, rest, scannedRest, rfl⟩ | ⟨_, scannedRest⟩
    · exact ⟨latest, mem_cons_self, (mem_singleton.mp member).symm⟩
    · rcases mem_cons.mp member with rfl | isRest
      · exact ⟨latest, mem_cons_self, rfl⟩
      · exact fromEarlier scannedRest isRest
    · exact fromEarlier scannedRest member

/-- Among some accesses, the latest write that may touch an item comes after a given access. -/
structure Access.Shadows (memory : Option MemoryRef) (accesses : List Access)
    (write access : Access) : Prop where
  member : write ∈ accesses
  after : access.node < write.node
  writes : write.writes = true
  touch : write.mayTouch memory = .ok true
  latest : ∀ between ∈ accesses, write.node < between.node → between.writes = true →
    between.mayTouch memory ≠ .ok true

theorem Access.Shadows.cons {write : Access} (shadows : Shadows memory earlier write access)
    (passed : latest.writes → latest.mayTouch memory ≠ .ok true) :
    Shadows memory (latest :: earlier) write access := by
  refine ⟨mem_cons_of_mem _ shadows.member, shadows.after, shadows.writes, shadows.touch, ?_⟩
  intro between isBetween after betweenWrites
  rcases mem_cons.mp isBetween with rfl | isBetween
  · exact passed betweenWrites
  · exact shadows.latest between isBetween after betweenWrites

/-- A conflicting access is linked, or the scan stopped before it, at the latest write that may
touch the item. -/
theorem Access.mem_conflicts (scanned : conflicts writes memory accesses = .ok links)
    (ordered : accesses.Pairwise fun later earlier => earlier.node < later.node)
    (member : access ∈ accesses) (touch : access.mayTouch memory = .ok true)
    (write : access.writes ∨ writes) :
    access.node ∈ links ∨
      ∃ stop : Access, stop.node ∈ links ∧ Shadows memory accesses stop access := by
  induction accesses generalizing links with
  | nil => cases member
  | cons latest earlier ih =>
    obtain ⟨above, ordered⟩ := pairwise_cons.mp ordered
    rcases conflicts_cons scanned with
      ⟨touched, isWrite, rfl⟩ | ⟨noWrite, _, rest, scannedRest, rfl⟩ | ⟨passed, scannedRest⟩
    · rcases mem_cons.mp member with rfl | isEarlier
      · exact .inl mem_cons_self
      refine .inr ⟨latest, mem_cons_self, mem_cons_self, above access isEarlier,
        isWrite, touched, ?_⟩
      intro between isBetween after
      rcases mem_cons.mp isBetween with rfl | isBetween
      · exact absurd after (Nat.lt_irrefl _)
      · exact absurd after (Nat.lt_asymm (above between isBetween))
    · rcases mem_cons.mp member with rfl | isEarlier
      · exact .inl mem_cons_self
      refine (ih scannedRest ordered isEarlier).imp (mem_cons_of_mem _) ?_
      rintro ⟨stop, linked, shadows⟩
      refine ⟨stop, mem_cons_of_mem _ linked, shadows.cons fun isWrite => ?_⟩
      rw [noWrite] at isWrite
      cases isWrite
    · rcases mem_cons.mp member with rfl | isEarlier
      · rcases passed with apart | ⟨noWrite, noWrites⟩
        · rw [touch] at apart
          cases apart
        · rw [noWrite, noWrites] at write
          rcases write with isWrite | isWrite <;> cases isWrite
      · refine (ih scannedRest ordered isEarlier).imp_right ?_
        rintro ⟨stop, linked, shadows⟩
        refine ⟨stop, linked, shadows.cons fun isWrite touched => ?_⟩
        rcases passed with apart | ⟨noWrite, _⟩
        · rw [touched] at apart
          cases apart
        · rw [noWrite] at isWrite
          cases isWrite

end

end

/-! ## Building -/

namespace DependencyGraph

variable {before middle after : DependencyGraph} {target : Nat} {edge : Edge}
  {edges more : List Edge}

/-- The one graph differs from the other only in the lists of nodes that it keeps, and in references
to memory that the operations have. -/
structure Notes (before after : DependencyGraph) : Prop where
  size : after.size = before.size
  earlyExit : after.earlyExit = before.earlyExit
  indices : after.indices = before.indices
  node : ∀ position, ∃ memory, after.node position = { before.node position with memory := memory } ∧
    (memory = (before.node position).memory ∨
      memory = MemoryRef.ofOperation? before.indices (before.op position))

theorem notes_guards (graph : DependencyGraph) (guards : List Nat) :
    graph.Notes { graph with guards := guards } :=
  ⟨rfl, rfl, rfl, fun _ => ⟨_, rfl, .inl rfl⟩⟩

theorem notes_memory {memory : Option MemoryRef} (position : Nat) (memoryNodes : List Nat)
    (isMemory : memory = MemoryRef.ofOperation? graph.indices (graph.op position)) :
    graph.Notes { graph.modifyNode position (fun node => { node with memory := memory }) with
      memoryNodes := memoryNodes } := by
  refine ⟨size_modifyNode graph position _, rfl, rfl, fun other => ?_⟩
  change ∃ noted, (graph.modifyNode position _).node other = _ ∧ _
  rw [node_modifyNode]
  split
  next here => exact ⟨memory, rfl, .inr (here.1 ▸ isMemory)⟩
  · exact ⟨_, rfl, .inl rfl⟩

theorem Notes.op (notes : before.Notes after) (position : Nat) :
    after.op position = before.op position := by
  obtain ⟨memory, isNode, _⟩ := notes.node position
  unfold DependencyGraph.op
  rw [isNode]

theorem Notes.sameEdges (notes : before.Notes after) : before.SameEdges after := by
  refine ⟨notes.size, fun position => ?_, fun position => ?_⟩
  · obtain ⟨memory, isNode, _⟩ := notes.node position
    rw [isNode]
  · obtain ⟨memory, isNode, _⟩ := notes.node position
    rw [isNode]

theorem Notes.keeps (notes : before.Notes after) : before.Keeps after := by
  refine ⟨notes.size, notes.indices, notes.op, fun position memory found => ?_,
    fun source target edge => ?_⟩
  · obtain ⟨noted, isNode, origin⟩ := notes.node position
    rw [isNode] at found
    rw [notes.indices, notes.op, ← found]
    exact origin.imp Eq.symm Eq.symm
  · rw [hasEdge_iff, notes.sameEdges.successors]
    exact hasEdge_iff.mp edge

/-- The second graph arises from the first by edges to a target, one after the other, and by
notes. -/
inductive Links (before : DependencyGraph) (target : Nat) :
    List Edge → DependencyGraph → Prop where
  | refl : Links before target [] before
  | link {edges : List Edge} {after : DependencyGraph} (source : Nat) (kind : EdgeKind) :
      Links before target edges after →
        Links before target (edges ++ [⟨source, kind⟩]) (after.link source target kind)
  | notes {edges : List Edge} {after noted : DependencyGraph} : Links before target edges after →
      after.Notes noted → Links before target edges noted

def toEdges (kind : EdgeKind) (sources : List Nat) : List Edge :=
  sources.map (⟨·, kind⟩)

namespace Links

theorem linkAll (links : before.Links target edges after) (kind : EdgeKind) (sources : List Nat) :
    before.Links target (edges ++ toEdges kind sources) (after.linkAll sources target kind) := by
  induction sources generalizing edges after with
  | nil => rwa [toEdges, map_nil, append_nil]
  | cons source rest ih =>
    have linked := ih (links.link source kind)
    rwa [append_assoc] at linked

theorem ofLinkAll (graph : DependencyGraph) (sources : List Nat) (target : Nat) (kind : EdgeKind) :
    graph.Links target (toEdges kind sources) (graph.linkAll sources target kind) :=
  refl.linkAll kind sources

theorem trans (first : before.Links target edges middle) (second : middle.Links target more after) :
    before.Links target (edges ++ more) after := by
  induction second with
  | refl => rwa [append_nil]
  | link source kind _ ih =>
    rw [← append_assoc]
    exact ih.link source kind
  | notes _ noted ih => exact ih.notes noted

variable (links : before.Links target edges after)

include links

theorem keeps : before.Keeps after := by
  induction links with
  | refl => exact .refl _
  | link source kind _ ih => exact ih.trans (keeps_link _ source target kind)
  | notes _ noted ih => exact ih.trans noted.keeps

theorem earlyExit : after.earlyExit = before.earlyExit := by
  induction links with
  | refl => rfl
  | link source kind _ ih => exact (earlyExit_link _ source target kind).trans ih
  | notes _ noted ih => exact noted.earlyExit.trans ih

theorem hasEdge {source : Nat} {kind : EdgeKind} (member : ⟨source, kind⟩ ∈ edges)
    (apart : source ≠ target) (inside : source < before.size) : after.hasEdge source target := by
  induction links with
  | refl => cases member
  | link other otherKind links ih =>
    rcases mem_append.mp member with isOld | isNew
    · exact hasEdge_link.mpr (.inl (ih isOld))
    · cases mem_singleton.mp isNew
      exact hasEdge_link.mpr (.inr ⟨rfl, rfl, apart, links.keeps.size ▸ inside⟩)
  | notes _ noted ih => exact noted.keeps.edges _ _ (ih member)

theorem depends_of_ne {node : Nat} (apart : node ≠ target) :
    (after.node node).depends = (before.node node).depends := by
  induction links with
  | refl => rfl
  | link source kind _ ih =>
    rw [depends_link, if_neg fun linked => apart linked.2.1.symm, append_nil, ih]
  | notes _ noted ih => rw [noted.sameEdges.depends, ih]

theorem mem_depends (member : edge ∈ (after.node target).depends) :
    edge ∈ (before.node target).depends ∨ edge ∈ edges := by
  induction links with
  | refl => exact .inl member
  | link source kind _ ih =>
    rw [depends_link, mem_append] at member
    rcases member with isOld | isNew
    · exact (ih isOld).imp_right (mem_append_left _)
    · split at isNew
      · exact .inr (mem_append_right _ isNew)
      · cases isNew
  | notes _ noted ih =>
    rw [noted.sameEdges.depends] at member
    exact ih member

end Links

theorem guards_linkAll (graph : DependencyGraph) (sources : List Nat) (target : Nat)
    (kind : EdgeKind) : (graph.linkAll sources target kind).guards = graph.guards := by
  induction sources generalizing graph with
  | nil => rfl
  | cons source rest ih => exact (ih _).trans (graph.guards_link source target kind)

theorem label_eq_some {label : Nat} (isLabel : graph.label = some label) :
    label = 0 ∧ (graph.op 0).opcode = .label ∧ 0 < graph.size := by
  unfold DependencyGraph.label at isLabel
  split at isLabel
  next node found =>
    split at isLabel
    next isLabelOp =>
      cases isLabel
      obtain ⟨inside, isNode⟩ := Array.getElem?_eq_some_iff.mp found
      refine ⟨rfl, ?_, inside⟩
      unfold op DependencyGraph.node
      rw [Array.getD_eq_getD_getElem?, found]
      exact isLabelOp
    · cases isLabel
  · cases isLabel

end DependencyGraph

/-- A guard that is kept in order when the early exit is the given one: without an early exit every
guard is, otherwise one that does not resume at the loop header, and an early exit itself. -/
def Operation.isChained (earlyExit : Option Nat) (op : Operation) : Bool :=
  op.isGuard && !(earlyExit.isSome && (op.exitsEarly && op.opcode != .guardEarlyExit))

theorem Operation.isGuard_of_isChained {earlyExit : Option Nat} {op : Operation}
    (chained : op.isChained earlyExit) : op.isGuard :=
  (Bool.and_eq_true_iff.mp chained).1

theorem Opcode.of_isLoad {opcode : Opcode} (isLoad : opcode.isLoad) :
    opcode.isGuard = false ∧ opcode.isArrayAccess ∧ opcode ≠ .label := by
  revert isLoad
  cases opcode <;> decide

theorem Opcode.isGuard_of_hasSideEffect {opcode : Opcode} (effect : opcode.hasSideEffect) :
    opcode.isGuard = false := by
  revert effect
  cases opcode <;> decide

theorem Opcode.of_isGuard {opcode : Opcode} (isGuard : opcode.isGuard) :
    (opcode.isArrayAccess || opcode.hasSideEffect) = false ∧ opcode.isLoad = false ∧
      opcode.hasSideEffect = false := by
  revert isGuard
  cases opcode <;> decide

section

variable {ops : List Operation} {position : Nat} {access : Access}

namespace GraphBuilder

open DependencyGraph

variable {builder next : GraphBuilder} {op : Operation}

/-- What a guard that is kept in order follows besides its operands: what defines its snapshot, the
guard before it and the effects since. -/
def chainTies (builder : GraphBuilder) (op : Operation) : List Edge :=
  if op.isChained builder.graph.earlyExit then
    toEdges .snapshot (builder.definers op.failArgs) ++ toEdges .guard builder.lastGuard.toList ++
      toEdges .sideEffect builder.effects
  else []

/-- The guard that a load or an effect follows. -/
def guardBefore (builder : GraphBuilder) (follows : Bool) : List Nat :=
  if follows then builder.lastGuard.toList else []

/-- What an operation follows besides its operands. -/
def ties (builder : GraphBuilder) (op : Operation) (labels links : List Nat) : List Edge :=
  builder.chainTies op ++ toEdges .label labels ++
    (toEdges .memory links ++ toEdges .guard (builder.guardBefore op.opcode.isLoad)) ++
    toEdges .sideEffect (builder.guardBefore op.opcode.hasSideEffect)

/-- What the builder remembers of the guards and the effects after one more operation. -/
structure Outlines (builder : GraphBuilder) (position : Nat) (op : Operation)
    (next : GraphBuilder) : Prop where
  earlyExit : next.graph.earlyExit = builder.graph.earlyExit
  guards : next.graph.guards = builder.graph.guards ++ if op.isGuard then [position] else []
  lastGuard : next.lastGuard =
    if op.isChained builder.graph.earlyExit then some position else builder.lastGuard
  effects : next.effects = if op.isChained builder.graph.earlyExit then []
    else builder.effects ++ if op.opcode.hasSideEffect then [position] else []

/-- What an operation behind the label does to the builder.  An early exit also follows the label,
and takes over boxes that it defines. -/
structure Adds (builder : GraphBuilder) (position : Nat) (op : Operation) (labels links : List Nat)
    (boxes : List Box) (next : GraphBuilder) : Prop extends builder.Outlines position op next where
  areLabels : ∀ label ∈ labels, label = 0 ∧ op.opcode = .guardEarlyExit
  scanned : ∀ access, Access.ofOperation? builder.graph.indices position op = some access →
    Access.conflicts access.writes access.memory builder.accesses = .ok links
  unscanned : Access.ofOperation? builder.graph.indices position op = none → links = []
  graph : (builder.addData position op).graph.Links position (builder.ties op labels links)
    next.graph
  areBoxes : ∀ box ∈ boxes, box ∈ (builder.graph.op 0).argBoxes
  definitions : next.definitions =
    (builder.define (boxes ++ op.result.toList) position).definitions
  accesses : next.accesses =
    (Access.ofOperation? builder.graph.indices position op).toList ++ builder.accesses

theorem exists_addEarlyExit (builder : GraphBuilder) (position : Nat) :
    ∃ graph labels boxes, builder.graph.Links position (toEdges .label labels) graph ∧
      graph.guards = builder.graph.guards ∧ (∀ label ∈ labels, label = 0) ∧
      (∀ box ∈ boxes, box ∈ (builder.graph.op 0).argBoxes) ∧
      builder.addEarlyExit position = { builder.define boxes position with graph := graph } := by
  unfold addEarlyExit
  split
  next label isLabel =>
    obtain ⟨rfl, _⟩ := label_eq_some isLabel
    exact ⟨_, [0], _, Links.refl.link 0 .label, guards_link _ _ _ _,
      fun _ => mem_singleton.mp, fun _ => id, rfl⟩
  · exact ⟨_, [], [], Links.refl, rfl, nofun, nofun, rfl⟩

section

variable (isOp : builder.graph.op position = op)

include isOp

theorem exists_addGuard (isGuard : op.isGuard) : ∃ graph labels boxes,
      builder.graph.Links position (builder.chainTies op ++ toEdges .label labels) graph ∧
      graph.guards = builder.graph.guards ++ [position] ∧
      (∀ label ∈ labels, label = 0 ∧ op.opcode = .guardEarlyExit) ∧
      (∀ box ∈ boxes, box ∈ (builder.graph.op 0).argBoxes) ∧
      builder.addGuard position op = { builder.define boxes position with
        graph := graph
        lastGuard := if op.isChained builder.graph.earlyExit then some position
          else builder.lastGuard
        effects := if op.isChained builder.graph.earlyExit then [] else builder.effects } := by
  have isChained : op.isChained builder.graph.earlyExit =
      !(builder.graph.earlyExit.isSome && (builder.graph.node position).isRelaxed) := by
    subst isOp
    rw [Operation.isChained, isGuard, Bool.true_and]
    rfl
  have listed : builder.graph.Links position [] _ :=
    Links.refl.notes (builder.graph.notes_guards (builder.graph.guards ++ [position]))
  obtain ⟨graph, links, guards, isOrdered⟩ : ∃ graph,
      builder.graph.Links position (builder.chainTies op) graph ∧
      graph.guards = builder.graph.guards ++ [position] ∧
      (fun listed : GraphBuilder =>
        if builder.graph.earlyExit.isSome && (builder.graph.node position).isRelaxed then listed
        else listed.addChainedGuard position op)
        { builder with graph := { builder.graph with guards := builder.graph.guards ++ [position] } }
        = { builder with
          graph := graph
          lastGuard := if op.isChained builder.graph.earlyExit then some position
            else builder.lastGuard
          effects := if op.isChained builder.graph.earlyExit then [] else builder.effects } := by
    unfold chainTies
    rw [isChained]
    cases builder.graph.earlyExit.isSome && (builder.graph.node position).isRelaxed with
    | true => exact ⟨_, listed, rfl, rfl⟩
    | false =>
      refine ⟨_, ((listed.linkAll .snapshot (builder.definers op.failArgs)).linkAll .guard
        builder.lastGuard.toList).linkAll .sideEffect builder.effects, ?_, rfl⟩
      rw [guards_linkAll, guards_linkAll, guards_linkAll]
  have isGuarded : builder.addGuard position op = _ :=
    congrArg (fun ordered : GraphBuilder =>
      if op.opcode = .guardEarlyExit then ordered.addEarlyExit position else ordered) isOrdered
  rw [isGuarded]
  split
  next isExit =>
    obtain ⟨exited, labels, boxes, exits, sameGuards, areLabels, areBoxes, same⟩ :=
      exists_addEarlyExit { builder with
        graph := graph
        lastGuard := if op.isChained builder.graph.earlyExit then some position
          else builder.lastGuard
        effects := if op.isChained builder.graph.earlyExit then [] else builder.effects } position
    refine ⟨exited, labels, boxes, links.trans exits, sameGuards.trans guards,
      fun label member => ⟨areLabels label member, isExit⟩, fun box member => ?_, same⟩
    rw [← links.keeps.ops]
    exact areBoxes box member
  · exact ⟨graph, [], [], links.linkAll .label [], guards, nofun, nofun, rfl⟩

/-- An operation that touches memory is linked to what the scan finds, and a load to the last guard;
any other leaves the builder as it is. -/
theorem exists_addAccess {finish : GraphBuilder → Except Fault GraphBuilder}
    (added : (if op.opcode.isArrayAccess || op.opcode.hasSideEffect then
      builder.addAccess position op >>= finish else pure builder >>= finish) = .ok next) :
    ∃ graph links, (∀ access, ofOperation? builder.graph.indices position op = some access →
        conflicts access.writes access.memory builder.accesses = .ok links) ∧
      (ofOperation? builder.graph.indices position op = none → links = []) ∧
      builder.graph.Links position
        (toEdges .memory links ++ toEdges .guard (builder.guardBefore op.opcode.isLoad)) graph ∧
      graph.guards = builder.graph.guards ∧
      finish { builder with
        graph := graph
        accesses := (ofOperation? builder.graph.indices position op).toList ++
          builder.accesses } = .ok next := by
  unfold ofOperation?
  split at added
  next accesses =>
    obtain ⟨accessed, isAccessed, added⟩ := Fault.bind_eq_ok.mp added
    obtain ⟨links, scanned, isAccessed⟩ := Fault.bind_eq_ok.mp isAccessed
    have loaded : ∀ (linked : GraphBuilder) (loads : Bool), (if !loads then linked
        else linked.linkAll linked.lastGuard.toList position .guard) =
          linked.linkAll (linked.guardBefore loads) position .guard := by
      intro linked loads
      cases loads <;> rfl
    dsimp only at isAccessed
    rw [loaded] at isAccessed
    cases isAccessed
    have linked := (Links.ofLinkAll builder.graph links position .memory).linkAll .guard
      (builder.guardBefore op.opcode.isLoad)
    rw [if_pos accesses]
    refine ⟨_, links, ?_, fun made => (nomatch made), linked.notes (notes_memory position _ ?_), ?_,
      added⟩
    · rintro access ⟨⟩
      exact scanned
    · rw [linked.keeps.indices, linked.keeps.ops, isOp]
    · exact (guards_linkAll _ _ _ _).trans (guards_linkAll _ _ _ _)
  next noAccess =>
    have noLoad : op.opcode.isLoad = false := by
      cases isLoad : op.opcode.isLoad with
      | false => rfl
      | true =>
        rw [(Opcode.of_isLoad isLoad).2.1] at noAccess
        exact absurd rfl noAccess
    rw [if_neg noAccess, noLoad]
    exact ⟨_, [], fun _ made => (nomatch made), fun _ => rfl, Links.refl, rfl, added⟩

omit isOp in
theorem addEffect_eq (builder : GraphBuilder) (position : Nat) (effect : Bool) :
    (if effect then builder.addEffect position else builder) =
      { builder.linkAll (builder.guardBefore effect) position .sideEffect with
        effects := builder.effects ++ if effect then [position] else [] } := by
  cases effect
  · simp [guardBefore, linkAll, DependencyGraph.linkAll]
  · rfl

/-- What adding an operation behind the label does.  A guard makes no access and has no effect. -/
theorem exists_adds (notLabel : ¬(op.opcode = .label ∧ position = 0))
    (added : builder.add position op = .ok next) :
    ∃ labels links boxes, builder.Adds position op labels links boxes next := by
  have data := Links.ofLinkAll builder.graph (builder.definers op.args) position .data
  have guards : (builder.addData position op).graph.guards = builder.graph.guards :=
    guards_linkAll _ _ _ _
  have isOp : (builder.addData position op).graph.op position = op :=
    (data.keeps.ops position).trans isOp
  have earlyExit : (builder.addData position op).graph.earlyExit = builder.graph.earlyExit :=
    data.earlyExit
  have indices : (builder.addData position op).graph.indices = builder.graph.indices :=
    data.keeps.indices
  unfold add at added
  rw [if_neg notLabel] at added
  dsimp only at added
  cases isGuard : op.isGuard with
  | true =>
    obtain ⟨noAccess, noLoad, noEffect⟩ := Opcode.of_isGuard isGuard
    obtain ⟨graph, labels, boxes, links, listed, areLabels, areBoxes, isGuarded⟩ :=
      exists_addGuard isOp isGuard
    rw [chainTies, earlyExit] at links
    rw [isGuard, if_pos rfl, isGuarded, noAccess, noEffect, earlyExit] at added
    cases added
    have unscanned : ofOperation? builder.graph.indices position op = none :=
      if_neg (Bool.eq_false_iff.mp noAccess)
    refine ⟨labels, [], boxes, ⟨⟨links.earlyExit.trans earlyExit, ?_, rfl, ?_⟩, areLabels,
      fun access made => ?_, fun _ => rfl, ?_, fun box member => ?_, ?_, ?_⟩⟩
    · rw [isGuard]
      exact guards ▸ listed
    · simp [noEffect, define, addData, linkAll]
    · cases unscanned.symm.trans made
    · rw [ties, noLoad, noEffect]
      exact (links.linkAll .memory []).linkAll .sideEffect []
    · rw [← data.keeps.ops]
      exact areBoxes box member
    · exact foldl_append.symm
    · rw [unscanned]
      rfl
  | false =>
    have unchained : op.isChained builder.graph.earlyExit = false := by
      rw [Operation.isChained, isGuard, Bool.false_and]
    rw [isGuard, if_neg Bool.false_ne_true] at added
    obtain ⟨graph, links, scanned, unscanned, linked, sameGuards, added⟩ :=
      exists_addAccess isOp added
    rw [indices] at scanned unscanned added
    rw [addEffect_eq] at added
    cases added
    have tied := linked.linkAll .sideEffect (builder.guardBefore op.opcode.hasSideEffect)
    refine ⟨[], links, [], ⟨⟨tied.earlyExit.trans earlyExit, ?_, ?_, ?_⟩, nofun, scanned,
      unscanned, ?_, nofun, rfl, rfl⟩⟩
    · rw [isGuard, if_neg Bool.false_ne_true, append_nil]
      exact (guards_linkAll _ _ _ _).trans (sameGuards.trans guards)
    · rw [unchained]
      rfl
    · rw [unchained]
      rfl
    · rw [ties, chainTies, unchained]
      exact tied

/-- The opening label defines its boxes, and every other operation is added behind it. -/
theorem cases_add (added : builder.add position op = .ok next) :
    (op.opcode = .label ∧ position = 0) ∧ next = builder.define op.argBoxes position ∨
      ∃ labels links boxes, builder.Adds position op labels links boxes next := by
  by_cases isLabel : op.opcode = .label ∧ position = 0
  · rw [add, if_pos isLabel] at added
    exact .inl ⟨isLabel, (Except.ok.inj added).symm⟩
  · exact .inr (exists_adds isOp isLabel added)

end

/-- An operation follows what defines its operands and what it is tied to. -/
theorem Adds.links {labels links : List Nat} {boxes : List Box}
    (adds : builder.Adds position op labels links boxes next) :
    builder.graph.Links position (toEdges .data (builder.definers op.args) ++
      builder.ties op labels links) next.graph :=
  (Links.ofLinkAll _ _ _ _).trans adds.graph

/-- Adding an operation links its access, if it makes one, to what the scan finds. -/
theorem add_eq_ok (isOp : builder.graph.op position = op)
    (added : builder.add position op = .ok next) :
    builder.graph.Keeps next.graph ∧
    next.accesses = (ofOperation? builder.graph.indices position op).toList ++ builder.accesses ∧
    ∀ access, ofOperation? builder.graph.indices position op = some access →
      ∃ links, conflicts access.writes access.memory builder.accesses = .ok links ∧
        ∀ source ∈ links, source ≠ position → source < builder.graph.size →
          next.graph.hasEdge source position := by
  rcases cases_add isOp added with ⟨isLabel, rfl⟩ | ⟨labels, links, boxes, adds⟩
  · have noAccess : ofOperation? builder.graph.indices position op = none := by
      unfold ofOperation?
      rw [isLabel.1]
      rfl
    rw [noAccess]
    exact ⟨.refl _, rfl, fun _ made => nomatch made⟩
  · refine ⟨adds.links.keeps, adds.accesses, fun access made =>
      ⟨links, adds.scanned access made, fun source isLink => ?_⟩⟩
    have isEdge : (⟨source, .memory⟩ : Edge) ∈ builder.ties op labels links := by
      simp [ties, toEdges, isLink]
    exact adds.links.hasEdge (mem_append_right _ isEdge)

/-- What each operation carries from its position to the next one holds once all are added. -/
theorem addAll_keeps {motive : Nat → GraphBuilder → Prop} {final : GraphBuilder}
    (keeps : ∀ {position op builder next}, motive position builder → ops[position]? = some op →
      builder.add position op = .ok next → motive (position + 1) next)
    (holds : motive position builder) (isRest : rest = ops.drop position)
    (inside : position ≤ ops.length) (added : builder.addAll position rest = .ok final) :
    motive ops.length final := by
  induction rest generalizing builder position with
  | nil =>
    cases added
    have atEnd : ops.length ≤ position := drop_eq_nil_iff.mp isRest.symm
    rw [Nat.le_antisymm atEnd inside]
    exact holds
  | cons op rest ih =>
    obtain ⟨next, addedOne, added⟩ := Fault.bind_eq_ok.mp added
    have found : ops[position]? = some op := by
      rw [← head?_drop, ← isRest, head?_cons]
    obtain ⟨before, _⟩ := List.getElem?_eq_some_iff.mp found
    refine ih (keeps holds found addedOne) ?_ before added
    rw [← drop_drop, ← isRest, drop_one, tail_cons]

/-- What an array access adds where there is no guard before it: edges from the sources of its
operands and from the accesses it may conflict with, and its place. -/
def withAccess (builder : GraphBuilder) (position : Nat) (op : Operation) (sources links : List Nat)
    (memory : MemoryRef) : GraphBuilder :=
  let linked := (builder.linkAll sources position .data).linkAll links position .memory
  let noted := linked.graph.modifyNode position fun node => { node with memory := some memory }
  let accessed := { linked with
    graph := { noted with memoryNodes := noted.memoryNodes ++ [position] }
    accesses := ⟨position, !op.opcode.isLoad, some memory⟩ :: linked.accesses }
  (if op.opcode.hasSideEffect then accessed.addEffect position else accessed).define
    op.result.toList position

end GraphBuilder

/-! ## Whole graphs -/

/-- The first operations are in the graph, with links for every access among them. -/
structure Linked (ops : List Operation) (position : Nat) (builder : GraphBuilder) : Prop where
  size : builder.graph.size = ops.length
  indices : builder.graph.indices = .ofOperations ops
  operations : ∀ position op, ops[position]? = some op → builder.graph.op position = op
  memory : ∀ position memory, (builder.graph.node position).memory = some memory →
    MemoryRef.ofOperation? (.ofOperations ops) (builder.graph.op position) = some memory
  accesses : builder.accesses = accessesBefore ops position
  links : ∀ target access, target < position → accessAt ops target = some access →
    ∃ links, Access.conflicts access.writes access.memory (accessesBefore ops target) = .ok links ∧
      ∀ source ∈ links, builder.graph.hasEdge source target = true

theorem linked_start (ops : List Operation) : Linked ops 0 { graph := unlinked ops } := by
  have nodes : ∀ position, (unlinked ops).node position =
      ((ops[position]?).map fun op => ({ op := op } : Node)).getD default := by
    intro position
    simp [DependencyGraph.node, unlinked, Array.getD_eq_getD_getElem?]
  refine ⟨by simp [size, unlinked], rfl, ?_, ?_, rfl,
    fun target _ before => absurd before (Nat.not_lt_zero target)⟩
  · intro position op found
    change ((unlinked ops).node position).op = op
    rw [nodes, found]
    rfl
  intro position memory found
  rw [nodes] at found
  cases isOp : ops[position]? with
  | none =>
    rw [isOp] at found
    cases found
  | some op =>
    rw [isOp] at found
    cases found

theorem Linked.add {builder next : GraphBuilder} {op : Operation}
    (linked : Linked ops position builder) (found : ops[position]? = some op)
    (added : builder.add position op = .ok next) : Linked ops (position + 1) next := by
  obtain ⟨kept, accesses, linksOf⟩ :=
    GraphBuilder.add_eq_ok (linked.operations position op found) added
  rw [linked.indices] at accesses linksOf
  rw [linked.accesses] at accesses linksOf
  have here : accessAt ops position = ofOperation? (.ofOperations ops) position op := by
    rw [accessAt, found, bind_some]
  refine ⟨kept.size.trans linked.size, kept.indices.trans linked.indices, ?_, ?_, ?_, ?_⟩
  · intro other otherOp isOther
    rw [kept.ops, linked.operations other otherOp isOther]
  · intro other memory noted
    rcases kept.memory other memory noted with earlier | own
    · rw [kept.ops]
      exact linked.memory other memory earlier
    · rw [← linked.indices, ← kept.indices]
      exact own
  · rw [accesses, accessesBefore, here]
  intro target access before isAccess
  rcases Nat.lt_succ_iff_lt_or_eq.mp before with earlier | rfl
  · obtain ⟨links, scanned, edges⟩ := linked.links target access earlier isAccess
    exact ⟨links, scanned, fun source isLink => kept.edges _ _ (edges source isLink)⟩
  obtain ⟨links, scanned, edges⟩ := linksOf access (here.symm.trans isAccess)
  refine ⟨links, scanned, fun source isLink => ?_⟩
  obtain ⟨linkedAccess, isBefore, rfl⟩ := exists_of_mem_conflicts scanned isLink
  obtain ⟨below, _⟩ := mem_accessesBefore.mp isBefore
  obtain ⟨inside, _⟩ := List.getElem?_eq_some_iff.mp found
  refine edges _ isLink (Nat.ne_of_lt below) ?_
  rw [linked.size]
  exact Nat.lt_trans below inside

section

variable (built : ofOperations ops = .ok graph)

include built

/-- A finished graph adds edges to the one in which all operations were added. -/
theorem exists_addAll_of_ofOperations :
    ∃ builder, GraphBuilder.addAll { graph := unlinked ops } 0 ops = .ok builder ∧
      builder.graph.Keeps graph := by
  obtain ⟨builder, added, closed⟩ := Fault.bind_eq_ok.mp built
  refine ⟨builder, added, ?_⟩
  split at closed
  · cases closed
    exact .refl _
  · cases closed
    exact (keeps_closeEnd _).trans (keeps_closeStart _)

theorem linked_of_ofOperations :
    ∃ builder, Linked ops ops.length builder ∧ builder.graph.Keeps graph := by
  obtain ⟨builder, added, kept⟩ := exists_addAll_of_ofOperations built
  exact ⟨builder, GraphBuilder.addAll_keeps Linked.add (linked_start ops) drop_zero.symm
    (Nat.zero_le _) added, kept⟩

theorem hasEdge_of_conflicts {target : Nat} (isAccess : accessAt ops target = some access) :
    ∃ links, conflicts access.writes access.memory (accessesBefore ops target) = .ok links ∧
      ∀ source ∈ links, graph.hasEdge source target := by
  obtain ⟨builder, linked, kept⟩ := linked_of_ofOperations built
  obtain ⟨op, found, _⟩ := bind_eq_some_iff.mp isAccess
  obtain ⟨inside, _⟩ := List.getElem?_eq_some_iff.mp found
  obtain ⟨links, scanned, edges⟩ := linked.links target access inside isAccess
  exact ⟨links, scanned, fun source isLink => kept.edges _ _ (edges source isLink)⟩

theorem memory_of_ofOperations {memory : MemoryRef}
    (found : (graph.node position).memory = some memory) :
    MemoryRef.ofOperation? graph.indices (graph.op position) = some memory := by
  obtain ⟨builder, linked, kept⟩ := linked_of_ofOperations built
  rcases kept.memory position memory found with earlier | own
  · rw [kept.indices, linked.indices, kept.ops]
    exact linked.memory position memory earlier
  · exact own

end

end

end LinearTrace
