import Catseq.Program.Data

/-!
The program arena of `program/arena.rs`: the vectors of nodes and values and the
table of variable names. Every creation call appends one value or one node and
returns its index; `variable` interns names, returning the index it registered
for a name the first time. One lemma says what a call can do to the values and
the table (`exec_cases`); from it, every call keeps the table a bijection between
the registered names and the variable values (`VarsOk.exec`), so along every run
a registered name gets its first handle back, with its first type hint
(`reachable_interning`).
-/

namespace Catseq.Program

/-- `ProgramArena`. -/
structure ProgramArena where
  nodes : List NodeData
  values : List ValueData
  varNames : AList fun _ : String => Nat

namespace ProgramArena

def new : ProgramArena := ⟨[],[],∅⟩

/-- `with_capacity`: the capacities only reserve memory. -/
def withCapacity (_nodeCapacity _valueCapacity : Nat) : ProgramArena := new

def nodeCount (self : ProgramArena) : Nat := self.nodes.length

def valueCount (self : ProgramArena) : Nat := self.values.length

def varCount (self : ProgramArena) : Nat := self.varNames.keys.length

def clear (self : ProgramArena) : ProgramArena := { self with nodes := [], values := [], varNames := ∅ }

/-! ### Creation calls -/

/-- The body the value creation calls share: append the value, return its index. -/
def pushValue (self : ProgramArena) (value : ValueData) : Nat × ProgramArena :=
  (self.values.length,{ self with values := self.values ++ [value] })

/-- The body the node creation calls share: append the node, return its index. -/
def pushNode (self : ProgramArena) (node : NodeData) : Nat × ProgramArena :=
  (self.nodes.length,{ self with nodes := self.nodes ++ [node] })

def literal (self : ProgramArena) (value : Int) : Nat × ProgramArena := self.pushValue (.int value)

def literalFloat (self : ProgramArena) (bits : UInt64) : Nat × ProgramArena := self.pushValue (.float bits)

/-- `variable`: the registered index of the name, or a new variable, its type
    hint parsed with `Int32` as the default. -/
def «variable» (self : ProgramArena) (name typeHint : String) : Nat × ProgramArena :=
  match self.varNames.lookup name with
  | some id => (id,self)
  | none =>
    let hint := (TypeHint.fromStr typeHint).getD .int32
    let id := self.values.length
    (id,{ self with values := self.values ++ [.variable name hint], varNames := self.varNames.insert name id })

def binaryExpr (self : ProgramArena) (lhs : Nat) (op : String) (rhs : Nat) : Nat × ProgramArena :=
  self.pushValue (.binaryExpr lhs ((AluOp.fromStr op).getD .add) rhs)

def unaryExpr (self : ProgramArena) (op : String) (operand : Nat) : Nat × ProgramArena :=
  self.pushValue (.unaryExpr ((UnaryOp.fromStr op).getD .neg) operand)

def condition (self : ProgramArena) (lhs : Nat) (op : String) (rhs : Nat) : Nat × ProgramArena :=
  self.pushValue (.condition lhs ((CmpOp.fromStr op).getD .eq) rhs)

def logicalExpr (self : ProgramArena) (lhs : Nat) (op : String) (rhs : Option Nat) : Nat × ProgramArena :=
  self.pushValue (.logicalExpr lhs ((LogicalOp.fromStr op).getD .and) rhs)

def lift (self : ProgramArena) (morphismRef : Nat) (params : List (String × Nat)) : Nat × ProgramArena :=
  self.pushNode (.lift morphismRef params)

def delay (self : ProgramArena) (duration : Nat) (maxHint : Option Nat) : Nat × ProgramArena :=
  self.pushNode (.delay duration maxHint)

def setVar (self : ProgramArena) (target value : Nat) : Nat × ProgramArena := self.pushNode (.set target value)

def chain (self : ProgramArena) (left right : Nat) : Nat × ProgramArena := self.pushNode (.chain left right)

def loopNode (self : ProgramArena) (count body : Nat) : Nat × ProgramArena := self.pushNode (.loop count body)

def matchNode (self : ProgramArena) (subject : Nat) (cases : List (Int × Nat)) (default : Option Nat) :
    Nat × ProgramArena :=
  self.pushNode (.match subject cases default)

def apply (self : ProgramArena) (func : Nat) (args : List Nat) : Nat × ProgramArena := self.pushNode (.apply func args)

def funcDef (self : ProgramArena) (name : String) (params : List Nat) (body : Nat) : Nat × ProgramArena :=
  self.pushNode (.funcDef name params body)

def measure (self : ProgramArena) (target source : Nat) : Nat × ProgramArena := self.pushNode (.measure target source)

def identity (self : ProgramArena) : Nat × ProgramArena := self.pushNode .identity

/-- One round of `chain_sequence`: adjacent handles chained pairwise, left to
    right, a last odd handle carried over. -/
def chainRound (self : ProgramArena) : List Nat → List Nat × ProgramArena
  | left :: right :: rest =>
    let combined := self.chain left right
    let next := combined.2.chainRound rest
    (combined.1 :: next.1,next.2)
  | current => (current,self)

theorem chainRound_length : ∀ (self : ProgramArena) (current : List Nat),
    (self.chainRound current).1.length = (current.length + 1) / 2
  | self, _ :: _ :: rest => by
    simp only [chainRound,List.length_cons,chainRound_length _ rest]
    omega
  | _, [] | _, [_] => by simp [chainRound]

/-- The rounds of `chain_sequence`, while more than one handle is left. -/
def chainLoop (self : ProgramArena) (current : List Nat) : List Nat × ProgramArena :=
  if _ : 1 < current.length then (self.chainRound current).2.chainLoop (self.chainRound current).1
  else (current,self)
termination_by current.length
decreasing_by rw [chainRound_length]; omega

/-- `chain_sequence`: `None` for no handle, otherwise the root of a balanced tree
    of `Chain` nodes over the handles. -/
def chainSequence (self : ProgramArena) (nodes : List Nat) : Option Nat × ProgramArena :=
  match nodes with
  | [] => (none,self)
  | [node] => (some node,self)
  | nodes =>
    let (current,self) := self.chainLoop nodes
    (current.head?,self)

/-! ### Queries -/

def isLiteral (self : ProgramArena) (valueId : Nat) : Bool := (self.values[valueId]?.map ValueData.isLiteral).getD false

def isVariable (self : ProgramArena) (valueId : Nat) : Bool := (self.values[valueId]?.map ValueData.isVariable).getD false

def getLiteralInt (self : ProgramArena) (valueId : Nat) : Option Int := self.values[valueId]?.bind ValueData.asInt

def getLiteralFloat (self : ProgramArena) (valueId : Nat) : Option UInt64 := self.values[valueId]?.bind ValueData.asFloat

def getVariableName (self : ProgramArena) (valueId : Nat) : Option String :=
  match self.values[valueId]? with
  | some (.variable name _) => some name
  | _ => none

/-- `get_node`. -/
def getNode (self : ProgramArena) (id : Nat) : Option NodeData := self.nodes[id]?

/-- `get_value`. -/
def getValue (self : ProgramArena) (id : Nat) : Option ValueData := self.values[id]?

end ProgramArena

/-- The calls that change a program arena. -/
inductive ProgramOp where
  | literal (value : Int)
  | literalFloat (bits : UInt64)
  | variable (name typeHint : String)
  | binaryExpr (lhs : Nat) (op : String) (rhs : Nat)
  | unaryExpr (op : String) (operand : Nat)
  | condition (lhs : Nat) (op : String) (rhs : Nat)
  | logicalExpr (lhs : Nat) (op : String) (rhs : Option Nat)
  | lift (morphismRef : Nat) (params : List (String × Nat))
  | delay (duration : Nat) (maxHint : Option Nat)
  | setVar (target value : Nat)
  | chain (left right : Nat)
  | loopNode (count body : Nat)
  | matchNode (subject : Nat) (cases : List (Int × Nat)) (default : Option Nat)
  | apply (func : Nat) (args : List Nat)
  | funcDef (name : String) (params : List Nat) (body : Nat)
  | measure (target source : Nat)
  | identity
  | chainSequence (nodes : List Nat)
  | clear
deriving Repr

namespace ProgramArena

/-- One call, its returned handle dropped. -/
def exec (self : ProgramArena) : ProgramOp → ProgramArena
  | .literal value => (self.literal value).2
  | .literalFloat bits => (self.literalFloat bits).2
  | .variable name typeHint => (self.variable name typeHint).2
  | .binaryExpr lhs op rhs => (self.binaryExpr lhs op rhs).2
  | .unaryExpr op operand => (self.unaryExpr op operand).2
  | .condition lhs op rhs => (self.condition lhs op rhs).2
  | .logicalExpr lhs op rhs => (self.logicalExpr lhs op rhs).2
  | .lift morphismRef params => (self.lift morphismRef params).2
  | .delay duration maxHint => (self.delay duration maxHint).2
  | .setVar target value => (self.setVar target value).2
  | .chain left right => (self.chain left right).2
  | .loopNode count body => (self.loopNode count body).2
  | .matchNode subject cases default => (self.matchNode subject cases default).2
  | .apply func args => (self.apply func args).2
  | .funcDef name params body => (self.funcDef name params body).2
  | .measure target source => (self.measure target source).2
  | .identity => self.identity.2
  | .chainSequence nodes => (self.chainSequence nodes).2
  | .clear => self.clear

def run (self : ProgramArena) : List ProgramOp → ProgramArena
  | [] => self
  | op :: ops => (self.exec op).run ops

/-- The arenas that some sequence of calls builds from `new`. -/
def Reachable (self : ProgramArena) : Prop := ∃ ops, new.run ops = self

/-! ### What a call does to the values and the table -/

/-- The values and the table of two arenas agree. -/
def SameValues (a b : ProgramArena) : Prop := b.values = a.values ∧ b.varNames = a.varNames

theorem sameValues_pushNode (self : ProgramArena) (node : NodeData) : SameValues self (self.pushNode node).2 :=
  ⟨rfl,rfl⟩

theorem sameValues_chainRound (self : ProgramArena) (current : List Nat) : SameValues self (self.chainRound current).2 := by
  induction self,current using chainRound.induct with
  | case1 self left right rest _ ih => exact ih
  | case2 self current notPair => rw [chainRound]; exacts [⟨rfl,rfl⟩,notPair]

theorem sameValues_chainLoop (self : ProgramArena) (current : List Nat) : SameValues self (self.chainLoop current).2 := by
  induction self,current using chainLoop.induct with
  | case1 self current _ ih =>
    rw [chainLoop,dif_pos ‹_›]
    exact ⟨ih.1.trans (sameValues_chainRound self current).1,ih.2.trans (sameValues_chainRound self current).2⟩
  | case2 self current _ =>
    rw [chainLoop,dif_neg ‹_›]
    exact ⟨rfl,rfl⟩

theorem sameValues_chainSequence (self : ProgramArena) (nodes : List Nat) :
    SameValues self (self.chainSequence nodes).2 := by
  unfold chainSequence
  split
  · exact ⟨rfl,rfl⟩
  · exact ⟨rfl,rfl⟩
  · exact sameValues_chainLoop self _

/-- What one call can do to the values and the table: nothing, append a value
    that is no variable, register a new name for an appended variable, or clear. -/
theorem exec_cases (self : ProgramArena) (op : ProgramOp) :
    SameValues self (self.exec op) ∨
    (∃ value, value.isVariable = false ∧ (self.exec op).values = self.values ++ [value] ∧
      (self.exec op).varNames = self.varNames) ∨
    (∃ name hint, self.varNames.lookup name = none ∧
      (self.exec op).values = self.values ++ [.variable name hint] ∧
      (self.exec op).varNames = self.varNames.insert name self.values.length) ∨
    ((self.exec op).values = [] ∧ (self.exec op).varNames = ∅) := by
  cases op with
  | «variable» name typeHint =>
    simp only [exec,ProgramArena.variable]
    cases registered : self.varNames.lookup name with
    | some id => exact .inl ⟨rfl,rfl⟩
    | none => exact .inr (.inr (.inl ⟨name,_,registered,rfl,rfl⟩))
  | literal | literalFloat | binaryExpr | unaryExpr | condition | logicalExpr =>
    refine .inr (.inl ⟨_,?_,rfl,rfl⟩)
    rfl
  | lift | delay | setVar | chain | loopNode | matchNode | apply | funcDef | measure | identity =>
    exact .inl (sameValues_pushNode _ _)
  | chainSequence nodes => exact .inl (sameValues_chainSequence self nodes)
  | clear => exact .inr (.inr (.inr ⟨rfl,rfl⟩))

/-! ### Interning -/

/-- The interning table: each registered name points at a variable value of that
    name, each variable value is registered under its name at its index, and the
    table has as many names as there are variable values. -/
structure VarsOk (arena : ProgramArena) : Prop where
  registered : ∀ name id, arena.varNames.lookup name = some id → ∃ hint, arena.values[id]? = some (.variable name hint)
  interned : ∀ id name hint, arena.values[id]? = some (.variable name hint) → arena.varNames.lookup name = some id
  varCount_eq : arena.varCount = (arena.values.filter ValueData.isVariable).length

theorem varsOk_new : VarsOk new :=
  ⟨fun _ _ registered => by simp [new,AList.lookup_empty] at registered,fun _ _ _ stored => by simp [new] at stored,rfl⟩

theorem VarsOk.same {a b : ProgramArena} (ok : VarsOk a) (same : SameValues a b) : VarsOk b := by
  obtain ⟨values,names⟩ := same
  exact ⟨by rw [values,names]; exact ok.registered,by rw [values,names]; exact ok.interned,
    by rw [varCount,values,names]; exact ok.varCount_eq⟩

/-- An entry of a list with one more element at its end is an old entry or the new one. -/
theorem getElem?_concat_eq_some {α : Type} {l : List α} {x y : α} {i : Nat} (h : (l ++ [x])[i]? = some y) :
    l[i]? = some y ∨ (i = l.length ∧ x = y) := by
  by_cases lt : i < l.length
  · rw [List.getElem?_append_left lt] at h
    exact .inl h
  · rw [List.getElem?_append_right (by omega)] at h
    rcases eq : i - l.length with _ | k <;> rw [eq] at h
    · exact .inr ⟨by omega,Option.some.inj h⟩
    · cases h

theorem getElem?_append_of_some {α : Type} {l : List α} {x y : α} {i : Nat} (h : l[i]? = some y) :
    (l ++ [x])[i]? = some y := by
  rw [List.getElem?_append_left (List.getElem?_eq_some_iff.mp h).1,h]

/-- Appending a value that is no variable keeps the table right. -/
theorem VarsOk.push {a b : ProgramArena} (ok : VarsOk a) {value : ValueData} (other : value.isVariable = false)
    (values : b.values = a.values ++ [value]) (names : b.varNames = a.varNames) : VarsOk b := by
  refine ⟨fun name id registered => ?_,fun id name hint stored => ?_,?_⟩
  · rw [names] at registered
    obtain ⟨hint,stored⟩ := ok.registered name id registered
    exact ⟨hint,by rw [values,getElem?_append_of_some stored]⟩
  · rw [values] at stored
    rcases getElem?_concat_eq_some stored with old | ⟨-,rfl⟩
    · rw [names]
      exact ok.interned id name hint old
    · simp at other
  · rw [varCount,names,values,List.filter_append,List.filter_singleton,other]
    simpa using ok.varCount_eq

/-- Registering a new name for an appended variable keeps the table right. -/
theorem VarsOk.register {a b : ProgramArena} (ok : VarsOk a) {name : String} {hint : TypeHint}
    (fresh : a.varNames.lookup name = none) (values : b.values = a.values ++ [.variable name hint])
    (names : b.varNames = a.varNames.insert name a.values.length) : VarsOk b := by
  refine ⟨fun name' id registered => ?_,fun id name' hint' stored => ?_,?_⟩
  · rw [names] at registered
    by_cases same : name' = name
    · subst same
      rw [AList.lookup_insert,Option.some.injEq] at registered
      exact ⟨hint,by rw [values,← registered,List.getElem?_concat_length]⟩
    · rw [AList.lookup_insert_ne same] at registered
      obtain ⟨hint',stored⟩ := ok.registered name' id registered
      exact ⟨hint',by rw [values,getElem?_append_of_some stored]⟩
  · rw [values] at stored
    rw [names]
    rcases getElem?_concat_eq_some stored with old | ⟨rfl,same⟩
    · have registered := ok.interned id name' hint' old
      have other : name' ≠ name := fun same => by rw [same,fresh] at registered; cases registered
      rw [AList.lookup_insert_ne other,registered]
    · cases same
      exact AList.lookup_insert _
  · have absent : name ∉ a.varNames.keys := AList.mem_keys.not.mp (AList.lookup_eq_none.mp fresh)
    rw [varCount,names,values,AList.keys_insert,List.erase_of_not_mem absent,List.filter_append]
    simpa using ok.varCount_eq

theorem VarsOk.clear {b : ProgramArena} (values : b.values = []) (names : b.varNames = ∅) : VarsOk b :=
  varsOk_new.same ⟨values,names⟩

/-- Every call keeps the table right. -/
theorem VarsOk.exec {a : ProgramArena} (ok : VarsOk a) (op : ProgramOp) : VarsOk (a.exec op) := by
  rcases exec_cases a op with same | ⟨value,other,values,names⟩ | ⟨name,hint,fresh,values,names⟩ | ⟨values,names⟩
  · exact ok.same same
  · exact ok.push other values names
  · exact ok.register fresh values names
  · exact VarsOk.clear values names

theorem VarsOk.run {a : ProgramArena} (ok : VarsOk a) (ops : List ProgramOp) : VarsOk (a.run ops) := by
  induction ops generalizing a with
  | nil => exact ok
  | cons op ops ih => exact ih (ok.exec op)

/-- On every reachable program arena the table interns the variables: each
    registered name points below the value count at a variable of that name, each
    variable value is registered at its index, the table has one name per
    variable value, and distinct names have distinct handles. `variable` on a new
    name stores the variable, with its parsed type hint, at the next index and
    registers the name there; on a registered name it returns its handle and
    leaves the arena, and so the first type hint, as they were. -/
theorem reachable_interning {p : ProgramArena} (reach : Reachable p) :
    (∀ name id, p.varNames.lookup name = some id →
      id < p.valueCount ∧ ∃ hint, p.values[id]? = some (.variable name hint)) ∧
    (∀ id name hint, p.values[id]? = some (.variable name hint) → p.varNames.lookup name = some id) ∧
    p.varCount = (p.values.filter ValueData.isVariable).length ∧
    (∀ name name' id, p.varNames.lookup name = some id → p.varNames.lookup name' = some id → name = name') ∧
    (∀ name typeHint, p.varNames.lookup name = none →
      (p.variable name typeHint).1 = p.valueCount ∧
      (p.variable name typeHint).2.values = p.values ++ [.variable name ((TypeHint.fromStr typeHint).getD .int32)] ∧
      (p.variable name typeHint).2.varNames.lookup name = some p.valueCount) ∧
    ∀ name typeHint id, p.varNames.lookup name = some id →
      p.variable name typeHint = (id,p) ∧ ∃ hint, p.values[id]? = some (.variable name hint) := by
  obtain ⟨ops,rfl⟩ := reach
  have ok := varsOk_new.run ops
  refine ⟨fun name id registered => ?_,ok.interned,ok.varCount_eq,fun name name' id r r' => ?_,
    fun name typeHint fresh => by simp [ProgramArena.variable,fresh,valueCount],
    fun name typeHint id registered => ⟨by simp [ProgramArena.variable,registered],ok.registered name id registered⟩⟩
  · obtain ⟨hint,stored⟩ := ok.registered name id registered
    exact ⟨(List.getElem?_eq_some_iff.mp stored).1,hint,stored⟩
  · obtain ⟨hint,stored⟩ := ok.registered name id r
    obtain ⟨hint',stored'⟩ := ok.registered name' id r'
    rw [stored] at stored'
    cases stored'
    rfl

/-- The variable `x` registered, a literal, and `x` asked for again with another type hint. -/
def twiceX : ProgramArena := new.run [.variable "x" "int32",.literal 3,.variable "x" "bool"]

theorem reachable_interning_twice :
    Reachable twiceX ∧
    (∀ name id, twiceX.varNames.lookup name = some id →
      id < twiceX.valueCount ∧ ∃ hint, twiceX.values[id]? = some (.variable name hint)) ∧
    (∀ id name hint, twiceX.values[id]? = some (.variable name hint) → twiceX.varNames.lookup name = some id) ∧
    twiceX.varCount = (twiceX.values.filter ValueData.isVariable).length ∧
    (∀ name name' id, twiceX.varNames.lookup name = some id → twiceX.varNames.lookup name' = some id → name = name') ∧
    (∀ name typeHint, twiceX.varNames.lookup name = none →
      (twiceX.variable name typeHint).1 = twiceX.valueCount ∧
      (twiceX.variable name typeHint).2.values = twiceX.values ++ [.variable name ((TypeHint.fromStr typeHint).getD .int32)] ∧
      (twiceX.variable name typeHint).2.varNames.lookup name = some twiceX.valueCount) ∧
    ∀ name typeHint id, twiceX.varNames.lookup name = some id →
      twiceX.variable name typeHint = (id,twiceX) ∧ ∃ hint, twiceX.values[id]? = some (.variable name hint) :=
  ⟨⟨_,rfl⟩,reachable_interning ⟨_,rfl⟩⟩

end ProgramArena

end Catseq.Program
