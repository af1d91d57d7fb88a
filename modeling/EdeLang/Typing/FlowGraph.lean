import EdeLang.Syntax.Printer
import EdeLang.Text.Characters
import EdeLang.Text.Layout

/-!
# Flow graphs

The statements of a function body, blocks apart, are the nodes of a graph whose edges say where
control may go next. A condition may turn out either way. A body falls off its end if control
can leave it from a statement that is no return.
-/

namespace EdeLang

/-- Where control goes: to a node, or out of the body. -/
inductive Edge where
  | node (i : Nat)
  | exit
deriving DecidableEq, Repr

namespace Edge

def node? : Edge → Option Nat
  | .node i => some i
  | .exit => none

def name : Edge → String
  | .node i => "n" ++ toString i
  | .exit => "exit"

end Edge

/-- The statement is a return. -/
def Stmt.isReturn : Stmt → Bool
  | .ret _ _ => true
  | _ => false

/-- The statements of a body with their successors, and where control enters. -/
structure FlowGraph where
  nodes : List (Stmt × List Edge)
  entry : Edge

namespace FlowGraph

mutual

/-- The nodes of a statement, numbered from `base`, and its entry. Control goes on to `next`. -/
def link (base : Nat) (next : Edge) : Stmt → List (Stmt × List Edge) × Edge
  | .block _ stmts => linkAll base next stmts
  | .cond info test yes no =>
    let (yesNodes, yesEntry) := link (base + 1) next yes
    match no with
    | none =>
      ((.cond info test yes none, [yesEntry, next]) :: yesNodes, .node base)
    | some s =>
      let (noNodes, noEntry) := link (base + 1 + yesNodes.length) next s
      ((.cond info test yes (some s), [yesEntry, noEntry]) :: (yesNodes ++ noNodes), .node base)
  | .loop info test body =>
    let (bodyNodes, bodyEntry) := link (base + 1) (.node base) body
    ((.loop info test body, [bodyEntry, next]) :: bodyNodes, .node base)
  | .ret info value => ([(.ret info value, [.exit])], .node base)
  | .var info name type init => ([(.var info name type init, [next])], .node base)
  | .expr info e => ([(.expr info e, [next])], .node base)

/-- The nodes of statements in sequence. The last statement has the first numbers. -/
def linkAll (base : Nat) (next : Edge) : List Stmt → List (Stmt × List Edge) × Edge
  | [] => ([], next)
  | s :: ss =>
    let (later, following) := linkAll base next ss
    let (nodes, entry) := link (base + later.length) following s
    (later ++ nodes, entry)

end

/-- The graph of a function body. -/
def ofBody (body : Stmt) : FlowGraph :=
  let (nodes, entry) := link 0 .exit body
  ⟨nodes, entry⟩

def successors (g : FlowGraph) (i : Nat) : List Edge :=
  match g.nodes[i]? with
  | some (_, succ) => succ
  | none => []

/-- All edges between nodes. -/
def edgeCount (g : FlowGraph) : Nat := g.nodes.foldr (fun n count => n.2.length + count) 0

/-- Breadth-first search from a queue, where `found` has been visited. Fuel bounds the number of
times that a node is taken from the queue. -/
def search (g : FlowGraph) : Nat → List Nat → List Nat → List Nat
  | 0, _, found => found
  | _ + 1, [], found => found
  | fuel + 1, i :: queue, found =>
    if found.contains i then search g fuel queue found
    else search g fuel (queue ++ (g.successors i).filterMap Edge.node?) (found ++ [i])

/-- The nodes that control can reach, nearer ones first. Each edge puts one node into the
queue. -/
def reachable (g : FlowGraph) : List Nat :=
  g.search (g.edgeCount + 1) g.entry.node?.toList []

/-- The place of a node, if control can leave the body there without a return. -/
def leak? (g : FlowGraph) (i : Nat) : Option Pos :=
  match g.nodes[i]? with
  | some (stmt, succ) => if succ.contains .exit && !stmt.isReturn then some stmt.pos else none
  | none => none

/-- The place where control first leaves the body without a return. -/
def fallsOff? (g : FlowGraph) (body : Stmt) : Option Pos :=
  match g.entry with
  | .exit => some body.pos
  | .node _ => g.reachable.findSome? g.leak?

/-- Text inside the quotes of a graph description. -/
def escaped (s : List Char) : String :=
  String.ofList (s.flatMap fun c => if c = '\\' ∨ c = '"' then ['\\', c] else [c])

/-- The first line of a statement. -/
def label (stmt : Stmt) : String :=
  escaped (Text.trimmed ((Text.lines stmt.text).headD "").toList)

/-- Lines of nodes numbered from `i`. -/
def nodeLines : Nat → List (Stmt × List Edge) → String
  | _, [] => ""
  | i, (stmt, _) :: nodes =>
    "  n" ++ toString i ++ " [shape=box, label=\"" ++ stmt.pos.text ++ ": " ++ label stmt ++
      "\"];\n" ++ nodeLines (i + 1) nodes

/-- Lines of the edges of nodes numbered from `i`. -/
def edgeLines : Nat → List (Stmt × List Edge) → String
  | _, [] => ""
  | i, (_, succ) :: nodes =>
    String.join (succ.map fun e => "  n" ++ toString i ++ " -> " ++ e.name ++ ";\n") ++
      edgeLines (i + 1) nodes

/-- The graph in the DOT language. -/
def dot (g : FlowGraph) (name : String) : String :=
  "digraph \"" ++ name ++ "\" \x7b\n" ++ "  entry [shape=point];\n" ++
    "  exit [shape=doublecircle];\n" ++ nodeLines 0 g.nodes ++
    "  entry -> " ++ g.entry.name ++ ";\n" ++ edgeLines 0 g.nodes ++ "\x7d\n"

end FlowGraph

/-- The place where control falls off the end of a body, if it can. -/
def Stmt.fallsOff? (body : Stmt) : Option Pos := (FlowGraph.ofBody body).fallsOff? body

/-- The flow graphs of all functions in the DOT language. -/
def Module.dot (m : Module) : String :=
  String.join (m.funcs.map fun f => (FlowGraph.ofBody f.body).dot f.name)

end EdeLang
