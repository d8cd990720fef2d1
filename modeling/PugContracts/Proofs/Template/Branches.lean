import PugContracts.Proofs.Template.Reading

/-!
# Further branches

An `else` goes to the last of the nodes before it, and a conditional hands it on to the conditional
that its branch consists of, since that is what an `else if` before it has left. The branch of a
plain `else` may have the same form, though, or be empty. Then the chain is not closed by it, and
takes the next `else` as well. `isOpenEnded` says of a branch whether that is so, and
`Node.takesBranch` of a node whether an `else` goes to it.

`Arrives` are the places that reading a template comes to: a block, the nodes before and the lines
that come next. What is found there is found in the template (`Arrives.errors_subset`).

## Main results

* `isSome_attachElse?`: a node takes a branch exactly if it is open.
* `Attaches.takesBranch_eq`: a chain is as open as the branch that it took last.
* `further_branches`: what becomes of the `else` lines after a plain `else`.
-/

namespace PugContracts.Template

variable {floor : Option Nat} {indent : Nat} {before others : List Node} {line : SourceLine}
  {lines after left : List SourceLine} {source : String} {node chain whole : Node}
  {body branch : List Node}

/-! ### Places in a template -/

/-- The block below a statement, if it takes one. -/
def Start.block (start : Start) : BlockReading :=
  if start.reading.statement.takesBlock then
    Template.block (some start.line.indent) start.reading.rest
  else ⟨[], [], start.reading.rest⟩

/-- The siblings with the statement among them, and the faults found only then. -/
def Start.close (start : Start) (before : List Node) : List Node × List SyntaxError :=
  start.reading.statement.close start.line.number start.block.nodes before

/-- The faults found in a statement and in the block below it. -/
def Start.errors (start : Start) (before : List Node) : List SyntaxError :=
  start.reading.errors ++ start.block.errors ++ (start.close before).2

/-- The line belongs to a block of the given indentation. -/
structure InBlock (floor : Option Nat) (indent : Nat) (line : SourceLine) : Prop where
  /-- It is not blank. -/
  nonblank : line.isBlank = false
  /-- It does not end the block. -/
  stays : endsBlock floor indent line = false

/-- Reading the template comes to the lines, in a block with the floor and the indentation, after
the nodes `before` of the block. -/
inductive Arrives (source : String) :
    Option Nat → Nat → List Node → List SourceLine → Prop
  /-- The block of the whole template. -/
  | start : Arrives source none (firstIndent (SourceLine.ofSource source.toList)) []
      (SourceLine.ofSource source.toList)
  /-- A blank line is passed over. -/
  | blank {floor : Option Nat} {indent : Nat} {before : List Node} {line : SourceLine}
      {after : List SourceLine} (h : Arrives source floor indent before (line :: after))
      (hblank : line.isBlank = true) : Arrives source floor indent before after
  /-- The block below a statement. -/
  | inner {floor : Option Nat} {indent : Nat} {before : List Node} {line : SourceLine}
      {after : List SourceLine} (h : Arrives source floor indent before (line :: after))
      (hline : InBlock floor indent line)
      (htakes : (Start.mk line after).reading.statement.takesBlock = true) :
      Arrives source (some line.indent) (firstIndent (Start.mk line after).reading.rest) []
        (Start.mk line after).reading.rest
  /-- What comes after a statement of the block and the block below it. -/
  | sibling {floor : Option Nat} {indent : Nat} {before : List Node} {line : SourceLine}
      {after : List SourceLine} (h : Arrives source floor indent before (line :: after))
      (hline : InBlock floor indent line) (hindent : line.indent = indent) :
      Arrives source floor indent ((Start.mk line after).close before).1
        (Start.mk line after).block.rest
  /-- What is as deep as a statement that is deeper than the block. -/
  | beside {floor : Option Nat} {indent : Nat} {before : List Node} {line : SourceLine}
      {after : List SourceLine} (h : Arrives source floor indent before (line :: after))
      (hline : InBlock floor indent line) (hindent : indent < line.indent) :
      Arrives source (some indent) line.indent ((Start.mk line after).close []).1
        (Start.mk line after).block.rest
  /-- What comes after such lines. -/
  | afterStray {floor : Option Nat} {indent : Nat} {before : List Node} {line : SourceLine}
      {after : List SourceLine} {stray : BlockReading}
      (h : Arrives source floor indent before (line :: after)) (hline : InBlock floor indent line)
      (hindent : indent < line.indent)
      (hstray : (siblings (some indent) line.indent ((Start.mk line after).close []).1
        (Start.mk line after).block.rest).val = stray) :
      Arrives source floor indent (absorb before stray.nodes) stray.rest

/-! ### What is found there -/

theorem siblings_blank (hblank : line.isBlank = true) :
    (siblings floor indent before (line :: after)).val =
      (siblings floor indent before after).val :=
  (reads_siblings ..).unique (.blank hblank (reads_siblings ..))

/-- What `Reads` asks of the block below a statement. -/
theorem Start.reads_block (start : Start) :
    (start.reading.statement.takesBlock = true →
      Reads (some start.line.indent) (firstIndent start.reading.rest) [] start.reading.rest
        start.block) ∧
    (start.reading.statement.takesBlock = false →
      start.block = ⟨[], [], start.reading.rest⟩) := by
  refine ⟨fun htakes => ?_, fun hleaves => ?_⟩
  · rw [Start.block, if_pos htakes]
    exact reads_siblings ..
  · rw [Start.block, if_neg (by simp [hleaves])]

/-- A block of one line that takes no block of its own. -/
theorem Start.block_of_complete {start : Start} {nodes : List Node}
    (htakes : start.reading.statement.takesBlock = true)
    (hrest : start.reading.rest = line :: after)
    (hline : InBlock (some start.line.indent) line.indent line)
    (hread : (Start.mk line after).reading = ⟨.complete nodes, [], after⟩)
    (hends : Reads (some start.line.indent) line.indent nodes after ⟨nodes, [], after⟩) :
    start.block = ⟨nodes, [], after⟩ := by
  have hreads := start.reads_block.1 htakes
  have hindent : firstIndent (line :: after) = line.indent := by
    simp [firstIndent, hline.nonblank]
  have hafter : Reads (some start.line.indent) line.indent
      ((Statement.complete nodes).close line.number [] []).1 after ⟨nodes, [], after⟩ := hends
  rw [hrest, hindent] at hreads
  exact hreads.unique (.sibling hline.nonblank hline.stays (Nat.lt_irrefl _) hread nofun
    (fun _ => rfl) hafter)

theorem siblings_sibling (hline : InBlock floor indent line) (hindent : line.indent = indent) :
    (siblings floor indent before (line :: after)).val =
      (siblings floor indent ((Start.mk line after).close before).1
        (Start.mk line after).block.rest).val.afterErrors
          ((Start.mk line after).errors before) := by
  have hblock := (Start.mk line after).reads_block
  exact (reads_siblings ..).unique (.sibling hline.nonblank hline.stays (by omega) rfl hblock.1
    hblock.2 (reads_siblings ..))

theorem siblings_stray (hline : InBlock floor indent line) (hindent : indent < line.indent) :
    let start := Start.mk line after
    let stray := (siblings (some indent) line.indent (start.close []).1 start.block.rest).val
    (siblings floor indent before (line :: after)).val =
      (siblings floor indent (absorb before stray.nodes) stray.rest).val.afterErrors
        (⟨line.number, .unexpectedIndentation⟩ :: start.errors [] ++ stray.errors) := by
  have hblock := (Start.mk line after).reads_block
  exact (reads_siblings ..).unique (.stray hline.nonblank hline.stays hindent rfl hblock.1 hblock.2
    (reads_siblings ..) (reads_siblings ..))

/-- **The faults found from some place on are faults of the template.** -/
theorem Arrives.errors_subset (h : Arrives source floor indent before lines) :
    (siblings floor indent before lines).val.errors ⊆ (parse source).errors := by
  induction h with
  | start => exact List.Subset.refl _
  | blank _ hblank ih => rwa [siblings_blank hblank] at ih
  | @inner floor indent before line after _ hline htakes ih =>
    have hblock : (Start.mk line after).block =
        Template.block (some line.indent) (Start.mk line after).reading.rest := if_pos htakes
    have hfound : ∀ before, (siblings (some line.indent)
        (firstIndent (Start.mk line after).reading.rest) []
          (Start.mk line after).reading.rest).val.errors ⊆ (Start.mk line after).errors before :=
      fun before error herror => by
        rw [Start.errors, hblock]
        exact List.mem_append_left _ (List.mem_append_right _ herror)
    rcases Nat.lt_or_ge indent line.indent with hindent | hindent
    · rw [siblings_stray hline hindent] at ih
      exact fun error herror => ih (List.mem_append_left _
        (List.mem_append_left _ (List.mem_cons_of_mem _ (hfound [] herror))))
    · have hstays : indent ≤ line.indent := by
        have := hline.stays
        cases floor <;> simp [endsBlock] at this <;> omega
      rw [siblings_sibling hline (Nat.le_antisymm hindent hstays)] at ih
      exact fun error herror => ih (List.mem_append_left _ (hfound before herror))
  | sibling _ hline hindent ih =>
    rw [siblings_sibling hline hindent] at ih
    exact fun error herror => ih (List.mem_append_right _ herror)
  | beside _ hline hindent ih =>
    rw [siblings_stray hline hindent] at ih
    exact fun error herror => ih (List.mem_append_left _ (List.mem_append_right _ herror))
  | afterStray _ hline hindent hstray ih =>
    rw [siblings_stray hline hindent, hstray] at ih
    exact fun error herror => ih (List.mem_append_right _ herror)

/-- The faults found when a statement of the block is read and closed are faults of the template. -/
theorem Arrives.start_errors_subset (h : Arrives source floor indent before (line :: after))
    (hline : InBlock floor indent line) (hindent : line.indent = indent) :
    (Start.mk line after).errors before ⊆ (parse source).errors := by
  have hsubset := h.errors_subset
  rw [siblings_sibling hline hindent] at hsubset
  exact fun error herror => hsubset (List.mem_append_left _ herror)

/-! ### Open nodes -/

/-- An `if` or an `unless`. -/
def NodeKind.isConditional : NodeKind → Bool
  | .conditional _ _ => true
  | _ => false

mutual

/-- Whether an `else` that comes after the node is attached to it. -/
def Node.takesBranch : Node → Bool
  | ⟨.conditional _ _, _, _, _, alternate⟩ => isOpenEnded alternate
  | ⟨.each _ _ _, _, _, _, alternate⟩ => alternate.isEmpty
  | _ => false

/-- Whether a conditional with this branch takes a further one: the branch is empty, or it is a
single conditional that takes one. -/
def isOpenEnded : List Node → Bool
  | [] => true
  | [node] => node.kind.isConditional && node.takesBranch
  | _ => false

end

namespace Statement

/-- **A node takes a branch exactly if it is open.** -/
theorem isSome_attachElse? (branch : List Node) (node : Node) :
    (attachElse? branch node).isSome = node.takesBranch := by
  induction node using attachElse?.induct with
  | case1 test negated line file children =>
    rw [attachElse?]
    rfl
  | case2 test negated line file children last test' negated' hkind ih =>
    rw [attachElse?, hkind]
    simp only [Option.isSome_map, ih, Node.takesBranch, isOpenEnded, hkind,
      NodeKind.isConditional, Bool.true_and]
  | case3 test negated line file children last hkind =>
    rw [attachElse?]
    have hnot : last.kind.isConditional = false := by
      cases hlast : last.kind <;> first | rfl | exact absurd hlast (hkind _ _)
    split
    · exact absurd ‹_› (hkind _ _)
    · simp [Node.takesBranch, isOpenEnded, hnot]
  | case4 item key collection line file children =>
    rw [attachElse?]
    rfl
  | case5 node h1 h2 h3 =>
    have hnone : attachElse? branch node = none := by rw [attachElse?] <;> assumption
    rw [hnone, Option.isSome_none]
    obtain ⟨kind, line, file, children, alternate⟩ := node
    cases kind with
    | conditional test negated =>
      rcases alternate with _ | ⟨last, _ | _⟩
      · exact absurd rfl (h1 _ _ _ _ _)
      · exact absurd rfl (h2 _ _ _ _ _ _)
      · rfl
    | each item key collection =>
      cases alternate with
      | nil => exact absurd rfl (h3 _ _ _ _ _ _)
      | cons => rfl
    | _ => rfl

/-- Attaching a branch does not change the kind of a node. -/
theorem Attaches.kind_eq (h : Attaches branch node whole) : whole.kind = node.kind := by
  cases h <;> rfl

/-- **A chain of conditionals is as open as the branch that it took last.** -/
theorem Attaches.takesBranch_eq (h : Attaches body chain whole)
    (hchain : chain.kind.isConditional = true) : whole.takesBranch = isOpenEnded body := by
  induction h with
  | conditional => rw [Node.takesBranch]
  | @further _ _ _ _ _ _ _ last attached hkind hlast ih =>
    have hconditional : last.kind.isConditional = true := by rw [hkind]; rfl
    rw [Node.takesBranch, isOpenEnded, hlast.kind_eq, hconditional, Bool.true_and,
      ih hconditional]
  | each => cases hchain

/-- An open last node takes the branch, and no fault is found. -/
theorem attachToLast_of_takesBranch (hnode : node.takesBranch = true) (line : Nat)
    (branch others : List Node) :
    ∃ attached, attachElse? branch node = some attached ∧
      attachToLast line branch (others ++ [node]) = (others ++ [attached], []) := by
  obtain ⟨attached, hattached⟩ := Option.isSome_iff_exists.mp
    ((isSome_attachElse? branch node).trans hnode)
  refine ⟨attached, hattached, ?_⟩
  rw [attachToLast, List.getLast?_concat, Option.bind_some, hattached, List.dropLast_concat]

/-- A branch that the last node does not take is a fault, and its nodes come after that node. -/
theorem attachToLast_of_not_takesBranch
    (hlast : ∀ node ∈ before.getLast?, node.takesBranch = false) (line : Nat)
    (branch : List Node) :
    attachToLast line branch before = (before ++ branch, [⟨line, .strayElse⟩]) := by
  have hnone : before.getLast?.bind (attachElse? branch) = none := by
    rw [Option.bind_eq_none_iff]
    intro node hnode
    rw [← Option.not_isSome_iff_eq_none, isSome_attachElse?, hlast node hnode]
    exact Bool.false_ne_true
  rw [attachToLast, hnone]

end Statement

/-! ### Runs of branches -/

/-- A branch, with the line that brings it. -/
structure Branch where
  /-- The line of the `else`. -/
  line : Nat
  /-- The nodes of the branch. -/
  nodes : List Node

/-- The fault that a branch is if nothing takes it. -/
def Branch.stray (branch : Branch) : SyntaxError :=
  ⟨branch.line, .strayElse⟩

/-- The branch that an `else` or an `else if` brings with the block below it. -/
def Start.branch? (start : Start) : Option Branch :=
  match start.reading.statement with
  | .elseBranch => some ⟨start.line.number, start.block.nodes⟩
  | .elseIf conditional => some ⟨start.line.number, [conditional.addChildren start.block.nodes]⟩
  | _ => none

/-- Lines of a block that bring one branch after the other, with no other sibling in between. -/
inductive Branches (floor : Option Nat) (indent : Nat) :
    List SourceLine → List Branch → List SourceLine → Prop
  /-- No line. -/
  | nil {lines : List SourceLine} : Branches floor indent lines [] lines
  /-- A blank line is passed over. -/
  | blank {line : SourceLine} {after left : List SourceLine} {run : List Branch}
      (hblank : line.isBlank = true) (hafter : Branches floor indent after run left) :
      Branches floor indent (line :: after) run left
  /-- A line as deep as the block that brings a branch, with the block below it. -/
  | cons {line : SourceLine} {after left : List SourceLine} {branch : Branch} {run : List Branch}
      (hline : InBlock floor indent line) (hindent : line.indent = indent)
      (hbranch : (Start.mk line after).branch? = some branch)
      (hafter : Branches floor indent (Start.mk line after).block.rest run left) :
      Branches floor indent (line :: after) (branch :: run) left

/-- Attach branches one after the other. -/
def attachAll : List Node → List Branch → List Node × List SyntaxError
  | before, [] => (before, [])
  | before, branch :: run =>
    let (nodes, errors) := Statement.attachToLast branch.line branch.nodes before
    let (final, more) := attachAll nodes run
    (final, errors ++ more)

theorem attachAll_cons (before : List Node) (branch : Branch) (run : List Branch) :
    attachAll before (branch :: run) =
      ((attachAll (Statement.attachToLast branch.line branch.nodes before).1 run).1,
        (Statement.attachToLast branch.line branch.nodes before).2 ++
          (attachAll (Statement.attachToLast branch.line branch.nodes before).1 run).2) := rfl

theorem close_of_branch? {start : Start} {branch : Branch} (h : start.branch? = some branch)
    (before : List Node) :
    start.close before = Statement.attachToLast branch.line branch.nodes before := by
  rw [Start.branch?] at h
  rw [Start.close]
  split at h
  · next hstatement =>
    rw [hstatement, ← Option.some.inj h]
    rfl
  · next hstatement =>
    rw [hstatement, ← Option.some.inj h]
    rfl
  · cases h

/-- **Reading goes through a run of branches** by attaching one after the other. -/
theorem Branches.arrives {run : List Branch} (hrun : Branches floor indent lines run left)
    (h : Arrives source floor indent before lines) :
    Arrives source floor indent (attachAll before run).1 left ∧
      (attachAll before run).2 ⊆ (parse source).errors := by
  induction hrun generalizing before with
  | nil => exact ⟨h, List.nil_subset _⟩
  | blank hblank _ ih => exact ih (h.blank hblank)
  | cons hline hindent hbranch _ ih =>
    have hclose := close_of_branch? hbranch before
    have hnext := h.sibling hline hindent
    rw [hclose] at hnext
    obtain ⟨harrives, herrors⟩ := ih hnext
    refine ⟨harrives, List.append_subset.mpr ⟨fun error herror => ?_, herrors⟩⟩
    refine h.start_errors_subset hline hindent (List.mem_append_right _ ?_)
    rwa [hclose]

theorem length_errors_attachAll (before : List Node) (run : List Branch) :
    (attachAll before run).2.length ≤ run.length := by
  induction run generalizing before with
  | nil => exact Nat.le_refl _
  | cons branch run ih =>
    have hone : (Statement.attachToLast branch.line branch.nodes before).2.length ≤ 1 := by
      rw [Statement.attachToLast]
      cases before.getLast?.bind (Statement.attachElse? branch.nodes) <;> simp
    have := ih (Statement.attachToLast branch.line branch.nodes before).1
    rw [attachAll_cons, List.length_append, List.length_cons]
    omega

/-- A run of branches is rejected after some nodes: each of them is a fault, and their nodes just
come after those. -/
def Rejects (before : List Node) (run : List Branch) : Prop :=
  attachAll before run = (before ++ run.flatMap Branch.nodes, run.map Branch.stray)

/-- The branches of a run are rejected one after the other. -/
theorem rejects_cons_iff {branch : Branch} {run : List Branch} :
    Rejects before (branch :: run) ↔
      (∀ node ∈ before.getLast?, node.takesBranch = false) ∧
        Rejects (before ++ branch.nodes) run := by
  by_cases hlast : ∀ node ∈ before.getLast?, node.takesBranch = false
  · rw [and_iff_right hlast, Rejects, Rejects, attachAll_cons,
      Statement.attachToLast_of_not_takesBranch hlast]
    simp [Branch.stray, Prod.ext_iff]
  · simp only [hlast, false_and, iff_false]
    simp only [not_forall, Bool.not_eq_false] at hlast
    obtain ⟨node, hnode, htakes⟩ := hlast
    obtain ⟨others, rfl⟩ := List.getLast?_eq_some_iff.mp hnode
    obtain ⟨attached, -, hattach⟩ :=
      Statement.attachToLast_of_takesBranch htakes branch.line branch.nodes others
    -- The branch is no fault, so there are fewer faults than branches.
    intro hrejects
    have hcount := congrArg (fun result => result.2.length) hrejects
    have hfewer := length_errors_attachAll (others ++ [attached]) run
    simp only [attachAll_cons, hattach, List.nil_append, List.length_map, List.length_cons]
      at hcount
    omega

/-- **A run is rejected** exactly if no branch of it comes after an open node. -/
theorem rejects_iff {run : List Branch} :
    Rejects before run ↔
      (run ≠ [] → ∀ node ∈ before.getLast?, node.takesBranch = false) ∧
        ∀ branch ∈ run.dropLast, ∀ node ∈ branch.nodes.getLast?, node.takesBranch = false := by
  induction run generalizing before with
  | nil => simp [Rejects, attachAll]
  | cons branch run ih =>
    rw [rejects_cons_iff, ih]
    cases run with
    | nil => simp
    | cons next run =>
      simp only [ne_eq, reduceCtorEq, not_false_eq_true, forall_const, List.dropLast_cons_cons,
        List.forall_mem_cons]
      -- If a branch has no nodes, the last node before it stays the last one.
      have hlast : (∀ node ∈ before.getLast?, node.takesBranch = false) →
          ((∀ node ∈ (before ++ branch.nodes).getLast?, node.takesBranch = false) ↔
            ∀ node ∈ branch.nodes.getLast?, node.takesBranch = false) := fun hbefore => by
        rw [List.getLast?_append]
        cases branch.nodes.getLast? with
        | none => simpa using hbefore
        | some node => simp
      exact and_congr_right fun hbefore => and_congr_left fun _ => hlast hbefore

/-- After a node that takes no branch, a branch leaves the nodes up to it as they are. -/
theorem exists_attachToLast_of_not_takesBranch (hnode : node.takesBranch = false) (branch : Branch)
    (others later : List Node) :
    ∃ more, (Statement.attachToLast branch.line branch.nodes (others ++ node :: later)).1 =
      others ++ node :: more := by
  by_cases hlast : ∀ last ∈ (others ++ node :: later).getLast?, last.takesBranch = false
  · rw [Statement.attachToLast_of_not_takesBranch hlast, List.append_assoc]
    exact ⟨later ++ branch.nodes, rfl⟩
  · simp only [not_forall, Bool.not_eq_false] at hlast
    obtain ⟨last, hmem, htakes⟩ := hlast
    cases hlater : later.getLast? with
    | none =>
      obtain rfl := List.getLast?_eq_none_iff.mp hlater
      rw [List.getLast?_concat, Option.mem_some_iff] at hmem
      rw [← hmem, hnode] at htakes
      cases htakes
    | some final =>
      obtain ⟨between, rfl⟩ := List.getLast?_eq_some_iff.mp hlater
      rw [← List.cons_append, ← List.append_assoc] at hmem ⊢
      rw [List.getLast?_concat, Option.mem_some_iff] at hmem
      obtain ⟨attached, -, hattach⟩ := Statement.attachToLast_of_takesBranch (hmem ▸ htakes)
        branch.line branch.nodes (others ++ node :: between)
      rw [hattach, List.append_assoc]
      exact ⟨between ++ [attached], rfl⟩

/-- After a node that takes no branch, a run leaves the nodes up to it as they are. -/
theorem exists_attachAll_of_not_takesBranch (hnode : node.takesBranch = false)
    (run : List Branch) (later : List Node) :
    ∃ more, (attachAll (others ++ node :: later) run).1 = others ++ node :: more := by
  induction run generalizing later with
  | nil => exact ⟨later, rfl⟩
  | cons branch run ih =>
    obtain ⟨more, hmore⟩ := exists_attachToLast_of_not_takesBranch hnode branch others later
    rw [attachAll_cons, hmore]
    exact ih more

/-! ### Main result -/

/-- What becomes of branches that come after a conditional which has taken the branch `body` of a
plain `else`. -/
structure FurtherBranches (source : String) (floor : Option Nat) (indent : Nat)
    (others : List Node) (whole : Node) (body : List Node) (run : List Branch)
    (left : List SourceLine) : Prop where
  /-- Reading goes on behind them with the nodes that attaching them leads to. -/
  arrives : Arrives source floor indent (attachAll (others ++ [whole]) run).1 left
  /-- Where one is rejected this is reported. -/
  reported : (attachAll (others ++ [whole]) run).2 ⊆ (parse source).errors
  /-- All of them are rejected exactly if the first branch is not open-ended, and no branch of the
  run but the last ends with an open node of its own. -/
  rejects_iff : Rejects (others ++ [whole]) run ↔
    (run ≠ [] → isOpenEnded body = false) ∧
      ∀ branch ∈ run.dropLast, ∀ node ∈ branch.nodes.getLast?, node.takesBranch = false
  /-- If the first branch is not open-ended, none of the others goes into the conditional. -/
  kept : isOpenEnded body = false →
    ∃ more, (attachAll (others ++ [whole]) run).1 = others ++ whole :: more
  /-- If it is open-ended, the next one does, and no fault is found. -/
  taken : isOpenEnded body = true → ∀ first ∈ run.head?, ∃ attached,
    Statement.attachElse? first.nodes whole = some attached ∧
      Statement.attachToLast first.line first.nodes (others ++ [whole]) = (others ++ [attached], [])

/-- **What becomes of the `else` lines after a plain `else`.** -/
theorem further_branches {run : List Branch}
    (h : Arrives source floor indent (others ++ [chain]) (line :: after))
    (hline : InBlock floor indent line) (hindent : line.indent = indent)
    (helse : (Start.mk line after).reading.statement = .elseBranch)
    (hchain : chain.kind.isConditional = true)
    (hwhole : Statement.attachElse? (Start.mk line after).block.nodes chain = some whole)
    (hrun : Branches floor indent (Start.mk line after).block.rest run left) :
    FurtherBranches source floor indent others whole (Start.mk line after).block.nodes run
      left := by
  have hopen := (Statement.attaches_of_attachElse? hwhole).takesBranch_eq hchain
  have hbranch : (Start.mk line after).branch? =
      some ⟨line.number, (Start.mk line after).block.nodes⟩ := by
    rw [Start.branch?, helse]
  have hnext := h.sibling hline hindent
  rw [close_of_branch? hbranch, Statement.attachToLast, List.getLast?_concat, Option.bind_some,
    hwhole, List.dropLast_concat] at hnext
  obtain ⟨harrives, hreported⟩ := hrun.arrives hnext
  refine ⟨harrives, hreported, ?_, fun hclosed => ?_, fun hopened first _ => ?_⟩
  · rw [rejects_iff, List.getLast?_concat]
    simp [hopen]
  · exact exists_attachAll_of_not_takesBranch (hopen.trans hclosed) run []
  · exact Statement.attachToLast_of_takesBranch (hopen.trans hopened) first.line first.nodes others

/-- A conditional with an `else`, and another `else`. -/
def repeatedElse : String :=
  "if a\n  = x\nelse\n  = y\nelse\n  = z"

/-- The lines after the first `else`. -/
def repeatedElseLines : List SourceLine :=
  [⟨4, 2, "= y".toList⟩, ⟨5, 0, "else".toList⟩, ⟨6, 2, "= z".toList⟩]

theorem further_branches_repeated :
    let condition (branch : List Node) : Node :=
      ⟨.conditional "a" false, 1, none, [.leaf (.code "x" true true) 2], branch⟩
    let start : Start := ⟨⟨3, 0, "else".toList⟩, repeatedElseLines⟩
    Arrives repeatedElse none 0 [condition []] (start.line :: start.after) ∧
      InBlock none 0 start.line ∧ start.line.indent = 0 ∧
      start.reading.statement = .elseBranch ∧ (condition []).kind.isConditional = true ∧
      Statement.attachElse? start.block.nodes (condition []) =
        some (condition [.leaf (.code "y" true true) 4]) ∧
      Branches none 0 start.block.rest [⟨5, [.leaf (.code "z" true true) 6]⟩] [] ∧
      FurtherBranches repeatedElse none 0 [] (condition [.leaf (.code "y" true true) 4])
        start.block.nodes [⟨5, [.leaf (.code "z" true true) 6]⟩] [] := by
  intro condition start
  have hlines : SourceLine.ofSource repeatedElse.toList =
      ⟨1, 0, "if a".toList⟩ :: ⟨2, 2, "= x".toList⟩ :: start.line :: start.after := by
    decide +kernel
  have hfirst : Arrives repeatedElse none 0 []
      (⟨1, 0, "if a".toList⟩ :: ⟨2, 2, "= x".toList⟩ :: start.line :: start.after) :=
    hlines ▸ Arrives.start
  have hif : (Start.mk ⟨1, 0, "if a".toList⟩
      (⟨2, 2, "= x".toList⟩ :: start.line :: start.after)).block =
        ⟨[.leaf (.code "x" true true) 2], [], start.line :: start.after⟩ :=
    Start.block_of_complete (by cbv) (by cbv) ⟨rfl, rfl⟩ (by cbv) (.ends rfl rfl)
  have hclose : ((Start.mk ⟨1, 0, "if a".toList⟩
      (⟨2, 2, "= x".toList⟩ :: start.line :: start.after)).close []).1 = [condition []] := by
    rw [Start.close, hif]
    cbv
  have harrives :
      Arrives repeatedElse none 0 ([] ++ [condition []]) (start.line :: start.after) := by
    have hnext := hfirst.sibling ⟨rfl, rfl⟩ rfl
    rwa [hif, hclose] at hnext
  have helse : start.reading.statement = .elseBranch := by cbv
  have hblock : start.block =
      ⟨[.leaf (.code "y" true true) 4], [], [⟨5, 0, "else".toList⟩, ⟨6, 2, "= z".toList⟩]⟩ :=
    Start.block_of_complete (by cbv) (by cbv) ⟨rfl, rfl⟩ (by cbv) (.ends rfl rfl)
  have hwhole : Statement.attachElse? start.block.nodes (condition []) =
      some (condition [.leaf (.code "y" true true) 4]) := by
    rw [hblock]
    rfl
  have hend : (Start.mk ⟨5, 0, "else".toList⟩ [⟨6, 2, "= z".toList⟩]).block =
      ⟨[.leaf (.code "z" true true) 6], [], []⟩ :=
    Start.block_of_complete (by cbv) (by cbv) ⟨rfl, rfl⟩ (by cbv) .nil
  have hlast : (Start.mk ⟨5, 0, "else".toList⟩ [⟨6, 2, "= z".toList⟩]).branch? =
      some ⟨5, [.leaf (.code "z" true true) 6]⟩ := by
    rw [Start.branch?, hend]
    cbv
  have hrun : Branches none 0 start.block.rest [⟨5, [.leaf (.code "z" true true) 6]⟩] [] := by
    rw [hblock]
    refine .cons ⟨rfl, rfl⟩ rfl hlast ?_
    rw [hend]
    exact .nil
  exact ⟨harrives, ⟨rfl, rfl⟩, rfl, helse, rfl, hwhole, hrun,
    further_branches harrives ⟨rfl, rfl⟩ rfl helse rfl hwhole hrun⟩

end PugContracts.Template
