import Capka.Lib.Json

/-!
# Reading JSON

`parse` is `JSON.parse`: a machine reads a text unit by unit, with the arrays and objects that are open on a stack. A number is known by
the text it is printed as, so zero and minus zero are one number; a number too large to be finite has no text, and is printed as `null`.
What `stringify` prints of a value that was read is read back as that value.
-/

namespace Ecma

/-! ## Values -/

/-- A value; `none` is a number that is not finite. -/
inductive Value where
  | null
  | bool (b : Bool)
  | num (n : Option Numeral)
  | str (s : Units)
  | arr (items : List Value)
  | obj (fields : List (Units × Value))

/-- `typeof v === "object" && v !== null`. -/
def Value.isObject : Value → Bool
  | .arr _ | .obj _ => true
  | .null | .bool _ | .num _ | .str _ => false

mutual

/-- `JSON.stringify` of a value. -/
def Value.stringify : Value → Units
  | .null => ofString "null"
  | .bool b => if b then ofString "true" else ofString "false"
  | .num n => match n with
    | some n => n.text
    | none => ofString "null"
  | .str s => quote s
  | .arr items => 0x5b :: (commas (Value.stringifyItems items) ++ [0x5d])
  | .obj fields => 0x7b :: (commas (Value.stringifyFields fields) ++ [0x7d])

def Value.stringifyItems : List Value → List Units
  | [] => []
  | v :: items => v.stringify :: Value.stringifyItems items

def Value.stringifyFields : List (Units × Value) → List Units
  | [] => []
  | (k, v) :: fields => member k v.stringify :: Value.stringifyFields fields

end

mutual

/-- What is printed of a value: `null` for a number that is not finite. -/
def Value.written : Value → Value
  | .null => .null
  | .bool b => .bool b
  | .num n => match n with
    | some n => .num (some n)
    | none => .null
  | .str s => .str s
  | .arr items => .arr (Value.writtenItems items)
  | .obj fields => .obj (Value.writtenFields fields)

def Value.writtenItems : List Value → List Value
  | [] => []
  | v :: items => v.written :: Value.writtenItems items

def Value.writtenFields : List (Units × Value) → List (Units × Value)
  | [] => []
  | (k, v) :: fields => (k, v.written) :: Value.writtenFields fields

end

/-- A digit. -/
def isDigit (u : UInt16) : Bool := 0x30 ≤ u && u ≤ 0x39

/-- The exponent of a number, or nothing. -/
def isExponent : Units → Bool
  | [] => true
  | u :: rest =>
    let digits := if rest.head? = some 0x2b ∨ rest.head? = some 0x2d then rest.tail else rest
    (u = 0x65 || u = 0x45) && digits ≠ [] && digits.all isDigit

/-- The fraction of a number, or nothing, and the exponent. -/
def isFraction : Units → Bool
  | 0x2e :: u :: rest => isDigit u && isExponent (rest.dropWhile isDigit)
  | rest => isExponent rest

/-- The text of a number, without its sign. -/
def isUnsigned : Units → Bool
  | [] => false
  | u :: rest => if u = 0x30 then isFraction rest else isDigit u && isFraction (rest.dropWhile isDigit)

/-- The text of a number. -/
def isNumber (s : Units) : Bool := if s.head? = some 0x2d then isUnsigned s.tail else isUnsigned s

/-- How numbers are read: the text a number is printed as, and `none` where it is not finite. What a number is printed as is the text of a
number, and read as it. -/
structure Numbers where
  read : Units → Option Numeral
  isNumber_text : ∀ token n, read token = some n → isNumber n.text = true
  read_text : ∀ token n, read token = some n → read n.text = some n

/-! ## Members -/

/-- The number of a key that is an array index. -/
def indexOf (key : Units) : Option Nat :=
  let n := key.foldl (fun n u => n * 10 + (u.toNat - 0x30)) 0
  if decimal n = key ∧ n < 4294967295 then some n else none

/-- The key of a member stands before a new key: indices come first, in their order, and the others as they come. -/
def precedes (new key : Units) : Bool :=
  match indexOf new with
  | none => true
  | some n => (indexOf key).any fun k => k < n

/-- Set a member: an old one keeps its place. -/
def setField (key : Units) (value : Value) (fields : List (Units × Value)) : List (Units × Value) :=
  if fields.any (fun f => f.1 = key) then fields.map fun f => if f.1 = key then (key, value) else f
  else fields.takeWhile (fun f => precedes key f.1) ++ (key, value) :: fields.dropWhile fun f => precedes key f.1

/-! ## The machine -/

/-- An array with its items so far, or an object with its members so far and the key of the one that is read. -/
inductive Frame where
  | arr (items : List Value)
  | obj (fields : List (Units × Value)) (key : Option Units)

/-- Within a string: an ordinary unit, one behind a backslash, or a hexadecimal digit behind so many others of a value. -/
inductive Escape where
  | plain
  | back
  | hex (count value : Nat)
  deriving DecidableEq

/-- What comes next: a value, an item or the end of an array, a key, a key or the end of an object, a colon, a comma or an end, the rest of
a string or of a word, or nothing. -/
inductive Mode where
  | value
  | item
  | name
  | member
  | colon
  | more
  | str (read : Units) (escape : Escape)
  | word (read : Units)
  | done (v : Value)

/-- The machine. -/
structure Machine where
  stack : List Frame
  mode : Mode

/-- The machine at the beginning of a text. -/
def Machine.start : Machine where
  stack := []
  mode := .value

/-- The white space of JSON. -/
def isJsonSpace (u : UInt16) : Bool := u = 0x20 || u = 0x09 || u = 0x0a || u = 0x0d

/-- A unit of a number or a literal. -/
def isWord (u : UInt16) : Bool :=
  !(isJsonSpace u || u = 0x7b || u = 0x7d || u = 0x5b || u = 0x5d || u = 0x2c || u = 0x3a || u = 0x22)

/-- A value is complete. -/
def complete (v : Value) : List Frame → Machine
  | [] => { stack := [], mode := .done v }
  | .arr items :: stack => { stack := .arr (items ++ [v]) :: stack, mode := .more }
  | .obj fields key :: stack => { stack := .obj (setField (key.getD []) v fields) none :: stack, mode := .more }

/-- The value of a word. -/
def wordValue (N : Numbers) (word : Units) : Option Value :=
  if word = ofString "null" then some .null
  else if word = ofString "true" then some (.bool true)
  else if word = ofString "false" then some (.bool false)
  else if isNumber word then some (.num (N.read word))
  else none

/-- A value begins. -/
def begins (u : UInt16) (stack : List Frame) : Option Machine :=
  if u = 0x22 then some { stack, mode := .str [] .plain }
  else if u = 0x7b then some { stack := .obj [] none :: stack, mode := .member }
  else if u = 0x5b then some { stack := .arr [] :: stack, mode := .item }
  else if isWord u then some { stack, mode := .word [u] }
  else none

/-- The array or the object on top of the stack ends. -/
def closes (u : UInt16) : List Frame → Option Machine
  | .arr items :: stack => if u = 0x5d then some (complete (.arr items) stack) else none
  | .obj fields _ :: stack => if u = 0x7d then some (complete (.obj fields) stack) else none
  | [] => none

/-- A comma, and what comes behind it. -/
def follows (u : UInt16) : List Frame → Option Machine
  | .arr items :: stack => if u = 0x2c then some { stack := .arr items :: stack, mode := .value } else closes u (.arr items :: stack)
  | .obj fields key :: stack =>
    if u = 0x2c then some { stack := .obj fields key :: stack, mode := .name } else closes u (.obj fields key :: stack)
  | [] => none

/-- A string is complete: a key of the object on top, or a value. -/
def closeString (s : Units) : List Frame → Machine
  | .obj fields none :: stack => { stack := .obj fields (some s) :: stack, mode := .colon }
  | stack => complete (.str s) stack

/-- The number of a hexadecimal digit of either case. -/
def hexOf (u : UInt16) : Option Nat :=
  if isDigit u then some (u.toNat - 0x30)
  else if 0x61 ≤ u && u ≤ 0x66 then some (u.toNat - 0x57)
  else if 0x41 ≤ u && u ≤ 0x46 then some (u.toNat - 0x37)
  else none

/-- A unit within a string. -/
def stringStep (stack : List Frame) (read : Units) (u : UInt16) : Escape → Option Machine
  | .plain =>
    if u = 0x22 then some (closeString read stack)
    else if u = 0x5c then some { stack, mode := .str read .back }
    else if u < 0x20 then none
    else some { stack, mode := .str (read ++ [u]) .plain }
  | .back =>
    if u = 0x75 then some { stack, mode := .str read (.hex 0 0) }
    else if [0x22, 0x5c, 0x2f, 0x62, 0x66, 0x6e, 0x72, 0x74].contains u then
      some { stack, mode := .str (read ++ [shortEscape u]) .plain }
    else none
  | .hex count value =>
    match hexOf u with
    | none => none
    | some d =>
      if count = 3 then some { stack, mode := .str (read ++ [UInt16.ofNat (value * 16 + d)]) .plain }
      else some { stack, mode := .str read (.hex (count + 1) (value * 16 + d)) }

/-- A unit outside of strings and words. -/
def plainStep (m : Machine) (u : UInt16) : Option Machine :=
  if isJsonSpace u then some m
  else
    match m.mode with
    | .value => begins u m.stack
    | .item => if u = 0x5d then closes u m.stack else begins u m.stack
    | .name => if u = 0x22 then some { m with mode := .str [] .plain } else none
    | .member => if u = 0x22 then some { m with mode := .str [] .plain } else closes u m.stack
    | .colon => if u = 0x3a then some { m with mode := .value } else none
    | .more => follows u m.stack
    | .str _ _ => none
    | .word _ => none
    | .done _ => none

/-- One unit; a word ends at a unit that is none of it. -/
def step (N : Numbers) (m : Machine) (u : UInt16) : Option Machine :=
  match m.mode with
  | .str read escape => stringStep m.stack read u escape
  | .word read =>
    if isWord u then some { m with mode := .word (read ++ [u]) }
    else (wordValue N read).bind fun v => plainStep (complete v m.stack) u
  | .value | .item | .name | .member | .colon | .more | .done _ => plainStep m u

/-- A text, unit by unit. -/
def run (N : Numbers) : Machine → Units → Option Machine
  | m, [] => some m
  | m, u :: rest => (step N m u).bind fun m' => run N m' rest

/-- The value of a text that ends here. -/
def Machine.value (N : Numbers) (m : Machine) : Option Value :=
  match m.mode with
  | .done v => some v
  | .word read => if m.stack.isEmpty then wordValue N read else none
  | _ => none

/-- `JSON.parse`; `none` is that it throws. -/
def parse (N : Numbers) (text : Units) : Option Value := (run N Machine.start text).bind (Machine.value N)

/-! ## What is read -/

/-- Members in the order an object has them, each key once. -/
def Ordered (fields : List (Units × Value)) : Prop := fields.Pairwise fun f g => f.1 ≠ g.1 ∧ precedes g.1 f.1 = true

/-- A value as it is read: its numbers are read ones, and its members are in order. -/
inductive Value.Canon (N : Numbers) : Value → Prop
  | null : Canon N .null
  | bool (b : Bool) : Canon N (.bool b)
  | infinite : Canon N (.num none)
  | num {token : Units} {n : Numeral} : N.read token = some n → Canon N (.num (some n))
  | str (s : Units) : Canon N (.str s)
  | arr {items : List Value} : (∀ v ∈ items, Canon N v) → Canon N (.arr items)
  | obj {fields : List (Units × Value)} : Ordered fields → (∀ f ∈ fields, Canon N f.2) → Canon N (.obj fields)

namespace JsonTextAux

variable {N : Numbers}

/-! ### Members -/

variable {key : Units}

theorem decimal_of_indexOf {n : Nat} (h : indexOf key = some n) : decimal n = key := by
  simp only [indexOf] at h
  split at h
  · rename_i heq
    obtain rfl := Option.some.inj h
    exact heq.1
  · cases h

variable {new : Units}

theorem precedes_false_iff :
    precedes new key = false ↔ ∃ n, indexOf new = some n ∧ ∀ k, indexOf key = some k → n ≤ k := by
  unfold precedes
  cases indexOf new with
  | none => simp
  | some n =>
    cases indexOf key with
    | none => simp
    | some k => simp

theorem precedes_true_iff :
    precedes new key = true ↔ ∀ n, indexOf new = some n → ∃ k, indexOf key = some k ∧ k < n := by
  unfold precedes
  cases indexOf new with
  | none => simp
  | some n =>
    cases indexOf key with
    | none => simp
    | some k => simp

theorem precedes_of_behind {first later : Units} (hfirst : precedes new first = false) (hne : new ≠ first)
    (hlater : later = first ∨ precedes later first = true) : precedes later new = true := by
  obtain ⟨n, hn, hle⟩ := precedes_false_iff.1 hfirst
  rw [precedes_true_iff]
  intro k hk
  rcases hlater with rfl | hlater
  · have hnk : n ≠ k := fun heq => hne ((decimal_of_indexOf hn).symm.trans (heq ▸ decimal_of_indexOf hk))
    exact ⟨n, hn, lt_of_le_of_ne (hle k hk) hnk⟩
  · obtain ⟨j, hj, hlt⟩ := precedes_true_iff.1 hlater k hk
    exact ⟨n, hn, (hle j hj).trans_lt hlt⟩

variable {fields : List (Units × Value)}

theorem setField_snoc {value : Value}
    (h : ∀ f ∈ fields, f.1 ≠ key ∧ precedes key f.1 = true) : setField key value fields = fields ++ [(key, value)] := by
  have hnew : ¬fields.any (fun f => f.1 = key) = true := by
    rw [List.any_eq_true]
    rintro ⟨f, hf, heq⟩
    exact (h f hf).1 (of_decide_eq_true heq)
  have hdrop : fields.dropWhile (fun f => precedes key f.1) = [] := List.dropWhile_eq_nil_iff.2 fun f hf => (h f hf).2
  have htake : fields.takeWhile (fun f => precedes key f.1) = fields := List.takeWhile_eq_self_iff.2 fun f hf => (h f hf).2
  rw [setField, if_neg hnew, hdrop, htake]

theorem mem_setField {value : Value} {f : Units × Value}
    (h : f ∈ setField key value fields) : f = (key, value) ∨ f ∈ fields := by
  unfold setField at h
  split at h
  · obtain ⟨g, hg, rfl⟩ := List.mem_map.1 h
    split
    · exact .inl rfl
    · exact .inr hg
  · rcases List.mem_append.1 h with h | h
    · exact .inr ((List.takeWhile_prefix _).subset h)
    · rcases List.mem_cons.1 h with rfl | h
      · exact .inl rfl
      · exact .inr ((List.dropWhile_suffix _).subset h)

theorem ordered_setField (value : Value) (h : Ordered fields) :
    Ordered (setField key value fields) := by
  unfold setField
  split
  · refine (List.pairwise_map.2 (h.imp fun hfg => ?_))
    split_ifs with hf hg hg
    · exact absurd (hf.trans hg.symm) hfg.1
    · exact hf ▸ hfg
    · exact hg ▸ hfg
    · exact hfg
  · rename_i hnew
    have hne : ∀ f ∈ fields, f.1 ≠ key := fun f hf heq => hnew (List.any_eq_true.2 ⟨f, hf, decide_eq_true heq⟩)
    have hsplit : fields.takeWhile (fun f => precedes key f.1) ++ fields.dropWhile (fun f => precedes key f.1) = fields :=
      List.takeWhile_append_dropWhile
    have hparts := h
    rw [Ordered, ← hsplit, List.pairwise_append] at hparts
    obtain ⟨htake, hdrop, hacross⟩ := hparts
    have hbefore : ∀ f ∈ fields.takeWhile (fun f => precedes key f.1), f.1 ≠ key ∧ precedes key f.1 = true := by
      intro f hf
      have hprecedes := List.mem_takeWhile_imp hf
      exact ⟨hne f ((List.takeWhile_prefix _).subset hf), hprecedes⟩
    have hbehind : ∀ g ∈ fields.dropWhile (fun f => precedes key f.1), key ≠ g.1 ∧ precedes g.1 key = true := by
      intro g hg
      have hgne := hne g ((List.dropWhile_suffix _).subset hg)
      refine ⟨hgne.symm, ?_⟩
      cases hrest : fields.dropWhile (fun f => precedes key f.1) with
      | nil =>
        rw [hrest] at hg
        cases hg
      | cons first rest =>
        have hhead := List.head?_dropWhile_not (fun f : Units × Value => precedes key f.1) fields
        rw [hrest] at hhead hg hdrop
        have hfirst : precedes key first.1 = false := by simpa using hhead
        have hfirstne : key ≠ first.1 := (hne first ((List.dropWhile_suffix _).subset (hrest ▸ List.mem_cons_self))).symm
        refine precedes_of_behind hfirst hfirstne ?_
        rcases List.mem_cons.1 hg with rfl | hg
        · exact .inl rfl
        · exact .inr ((List.pairwise_cons.1 hdrop).1 g hg).2
    refine List.pairwise_append.2 ⟨htake, List.pairwise_cons.2 ⟨hbehind, hdrop⟩, fun f hf g hg => ?_⟩
    rcases List.mem_cons.1 hg with rfl | hg
    · exact hbefore f hf
    · exact hacross f hf g hg

/-! ### The machine keeps its values as they are read -/

/-- What is open is as it is read. -/
def FrameCanon (N : Numbers) : Frame → Prop
  | .arr items => ∀ v ∈ items, v.Canon N
  | .obj fields _ => Ordered fields ∧ ∀ f ∈ fields, f.2.Canon N

/-- Everything in the machine is as it is read. -/
structure MachineCanon (N : Numbers) (m : Machine) : Prop where
  stack : ∀ f ∈ m.stack, FrameCanon N f
  done : ∀ v, m.mode = .done v → v.Canon N

variable {stack : List Frame}

theorem canon_of_stack {mode : Mode} (h : ∀ f ∈ stack, FrameCanon N f) (hmode : ∀ v, mode ≠ .done v) :
    MachineCanon N { stack, mode } := ⟨h, fun v hv => absurd hv (hmode v)⟩

theorem canon_complete {v : Value} (hv : v.Canon N) (h : ∀ f ∈ stack, FrameCanon N f) :
    MachineCanon N (complete v stack) := by
  cases stack with
  | nil =>
    refine ⟨h, fun w hw => ?_⟩
    obtain rfl := Mode.done.inj hw
    exact hv
  | cons f stack =>
    have hf := h f List.mem_cons_self
    have hrest : ∀ g ∈ stack, FrameCanon N g := fun g hg => h g (List.mem_cons_of_mem _ hg)
    cases f with
    | arr items =>
      refine canon_of_stack (fun g hg => ?_) nofun
      rcases List.mem_cons.1 hg with rfl | hg
      · exact fun w hw => (List.mem_append.1 hw).elim (hf w) fun hw => List.mem_singleton.1 hw ▸ hv
      · exact hrest g hg
    | obj fields key =>
      refine canon_of_stack (fun g hg => ?_) nofun
      rcases List.mem_cons.1 hg with rfl | hg
      · refine ⟨ordered_setField v hf.1, fun x hx => ?_⟩
        rcases mem_setField hx with rfl | hx
        · exact hv
        · exact hf.2 x hx
      · exact hrest g hg

theorem canon_wordValue {word : Units} {v : Value} (h : wordValue N word = some v) : v.Canon N := by
  unfold wordValue at h
  split at h
  · obtain rfl := Option.some.inj h
    exact .null
  split at h
  · obtain rfl := Option.some.inj h
    exact .bool true
  split at h
  · obtain rfl := Option.some.inj h
    exact .bool false
  split at h
  · obtain rfl := Option.some.inj h
    cases hread : N.read word with
    | none => exact .infinite
    | some n => exact .num hread
  · cases h

variable {u : UInt16} {m : Machine}

theorem canon_begins (h : ∀ f ∈ stack, FrameCanon N f)
    (hm : begins u stack = some m) : MachineCanon N m := by
  unfold begins at hm
  split at hm
  · obtain rfl := Option.some.inj hm
    exact canon_of_stack h nofun
  split at hm
  · obtain rfl := Option.some.inj hm
    refine canon_of_stack (fun f hf => ?_) nofun
    rcases List.mem_cons.1 hf with rfl | hf
    · exact ⟨List.Pairwise.nil, fun g hg => absurd hg List.not_mem_nil⟩
    · exact h f hf
  split at hm
  · obtain rfl := Option.some.inj hm
    refine canon_of_stack (fun f hf => ?_) nofun
    rcases List.mem_cons.1 hf with rfl | hf
    · exact fun v hv => absurd hv List.not_mem_nil
    · exact h f hf
  split at hm
  · obtain rfl := Option.some.inj hm
    exact canon_of_stack h nofun
  · cases hm

theorem canon_closes (h : ∀ f ∈ stack, FrameCanon N f)
    (hm : closes u stack = some m) : MachineCanon N m := by
  cases stack with
  | nil => cases hm
  | cons f stack =>
    have hf := h f List.mem_cons_self
    have hrest : ∀ g ∈ stack, FrameCanon N g := fun g hg => h g (List.mem_cons_of_mem _ hg)
    cases f with
    | arr items =>
      simp only [closes] at hm
      split at hm
      · obtain rfl := Option.some.inj hm
        exact canon_complete (.arr hf) hrest
      · cases hm
    | obj fields key =>
      simp only [closes] at hm
      split at hm
      · obtain rfl := Option.some.inj hm
        exact canon_complete (.obj hf.1 hf.2) hrest
      · cases hm

theorem canon_follows (h : ∀ f ∈ stack, FrameCanon N f)
    (hm : follows u stack = some m) : MachineCanon N m := by
  unfold follows at hm
  split at hm
  · split at hm
    · obtain rfl := Option.some.inj hm
      exact canon_of_stack h nofun
    · exact canon_closes h hm
  · split at hm
    · obtain rfl := Option.some.inj hm
      exact canon_of_stack h nofun
    · exact canon_closes h hm
  · cases hm

theorem canon_closeString (s : Units) (h : ∀ f ∈ stack, FrameCanon N f) : MachineCanon N (closeString s stack) := by
  unfold closeString
  split
  · rename_i fields stack
    refine canon_of_stack (fun f hf => ?_) nofun
    rcases List.mem_cons.1 hf with rfl | hf
    · exact h (.obj fields none) List.mem_cons_self
    · exact h f (List.mem_cons_of_mem _ hf)
  · exact canon_complete (.str s) h

theorem canon_stringStep {read : Units} {escape : Escape}
    (h : ∀ f ∈ stack, FrameCanon N f) (hm : stringStep stack read u escape = some m) : MachineCanon N m := by
  cases escape with
  | plain =>
    simp only [stringStep] at hm
    split at hm
    · obtain rfl := Option.some.inj hm
      exact canon_closeString read h
    split at hm
    · obtain rfl := Option.some.inj hm
      exact canon_of_stack h nofun
    split at hm
    · cases hm
    · obtain rfl := Option.some.inj hm
      exact canon_of_stack h nofun
  | back =>
    simp only [stringStep] at hm
    split at hm
    · obtain rfl := Option.some.inj hm
      exact canon_of_stack h nofun
    split at hm
    · obtain rfl := Option.some.inj hm
      exact canon_of_stack h nofun
    · cases hm
  | hex count value =>
    simp only [stringStep] at hm
    split at hm
    · cases hm
    split at hm
    · obtain rfl := Option.some.inj hm
      exact canon_of_stack h nofun
    · obtain rfl := Option.some.inj hm
      exact canon_of_stack h nofun

theorem canon_plainStep {m' : Machine} (h : MachineCanon N m) (hm : plainStep m u = some m') : MachineCanon N m' := by
  unfold plainStep at hm
  split at hm
  · obtain rfl := Option.some.inj hm
    exact h
  split at hm
  · exact canon_begins h.stack hm
  · split at hm
    · exact canon_closes h.stack hm
    · exact canon_begins h.stack hm
  · split at hm
    · obtain rfl := Option.some.inj hm
      exact canon_of_stack h.stack nofun
    · cases hm
  · split at hm
    · obtain rfl := Option.some.inj hm
      exact canon_of_stack h.stack nofun
    · exact canon_closes h.stack hm
  · split at hm
    · obtain rfl := Option.some.inj hm
      exact canon_of_stack h.stack nofun
    · cases hm
  · exact canon_follows h.stack hm
  · cases hm
  · cases hm
  · cases hm

theorem canon_step {m' : Machine} (h : MachineCanon N m) (hm : step N m u = some m') : MachineCanon N m' := by
  unfold step at hm
  split at hm
  · exact canon_stringStep h.stack hm
  · split at hm
    · obtain rfl := Option.some.inj hm
      exact canon_of_stack h.stack nofun
    · obtain ⟨v, hv, hstep⟩ := Option.bind_eq_some_iff.1 hm
      exact canon_plainStep (canon_complete (canon_wordValue hv) h.stack) hstep
  all_goals exact canon_plainStep h hm

theorem canon_run {text : Units} : ∀ {m m' : Machine}, MachineCanon N m → run N m text = some m' → MachineCanon N m' := by
  induction text with
  | nil =>
    intro m m' h hm
    obtain rfl := Option.some.inj hm
    exact h
  | cons u rest ih =>
    intro m m' h hm
    obtain ⟨m₁, hstep, hrest⟩ := Option.bind_eq_some_iff.1 hm
    exact ih (canon_step h hstep) hrest

end JsonTextAux

variable {v : Value}

theorem canon_of_parse {N : Numbers} {text : Units} (h : parse N text = some v) : v.Canon N := by
  obtain ⟨m, hm, hv⟩ := Option.bind_eq_some_iff.1 h
  have hstart : JsonTextAux.MachineCanon N Machine.start :=
    JsonTextAux.canon_of_stack (fun f hf => absurd hf List.not_mem_nil) nofun
  have hcanon := JsonTextAux.canon_run hstart hm
  unfold Machine.value at hv
  split at hv
  · rename_i w hmode
    obtain rfl := Option.some.inj hv
    exact hcanon.done w hmode
  · split at hv
    · exact JsonTextAux.canon_wordValue hv
    · cases hv
  · cases hv

namespace JsonTextAux

variable {N : Numbers}

/-! ### What is printed is read back -/

variable {u : UInt16}

theorem run_cons_of_step {m n : Machine} (h : step N m u = some n) (rest : Units) :
    run N m (u :: rest) = run N n rest := by
  rw [run, h, Option.bind_some]

variable {stack : List Frame} {read : Units}

theorem step_plain (hq : u ≠ 0x22) (hb : u ≠ 0x5c) (hc : ¬u < 0x20) :
    step N { stack, mode := .str read .plain } u = some { stack, mode := .str (read ++ [u]) .plain } := by
  simp only [step, stringStep, if_neg hq, if_neg hb, if_neg hc]

theorem run_shortEscape {c : UInt16} (hu : c ≠ 0x75)
    (hc : [0x22, 0x5c, 0x2f, 0x62, 0x66, 0x6e, 0x72, 0x74].contains c = true) (rest : Units) :
    run N { stack, mode := .str read .plain } (0x5c :: c :: rest) = run N { stack, mode := .str (read ++ [shortEscape c]) .plain } rest := by
  rw [run_cons_of_step (n := { stack, mode := .str read .back }) rfl, run_cons_of_step]
  simp only [step, stringStep, if_neg hu, if_pos hc]

theorem hexOf_hexDigit : ∀ d < 16, hexOf (hexDigit d) = some d := by decide

theorem run_hexEscape (u : UInt16) (rest : Units) :
    run N { stack, mode := .str read .plain } (hexEscape u ++ rest) = run N { stack, mode := .str (read ++ [u]) .plain } rest := by
  have hlt := u.toNat_lt
  have hdigit : ∀ n, hexOf (hexDigit (n % 16)) = some (n % 16) := fun n => hexOf_hexDigit _ (Nat.mod_lt _ (by decide))
  have hhex : ∀ {count value n : Nat} (t : Units), count ≠ 3 →
      run N { stack, mode := .str read (.hex count value) } (hexDigit (n % 16) :: t) =
        run N { stack, mode := .str read (.hex (count + 1) (value * 16 + n % 16)) } t := by
    intro count value n t hcount
    rw [run_cons_of_step]
    simp only [step, stringStep, hdigit, if_neg hcount]
  have hlast : ∀ {value n : Nat} (t : Units), run N { stack, mode := .str read (.hex 3 value) } (hexDigit (n % 16) :: t) =
      run N { stack, mode := .str (read ++ [UInt16.ofNat (value * 16 + n % 16)]) .plain } t := by
    intro value n t
    rw [run_cons_of_step]
    simp only [step, stringStep, hdigit, if_true]
  have hsum : (((0 * 16 + u.toNat / 4096 % 16) * 16 + u.toNat / 256 % 16) * 16 + u.toNat / 16 % 16) * 16 + u.toNat % 16 = u.toNat := by
    omega
  simp only [hexEscape, List.cons_append, List.nil_append]
  rw [run_cons_of_step (n := { stack, mode := .str read .back }) rfl, run_cons_of_step (n := { stack, mode := .str read (.hex 0 0) }) rfl,
    hhex _ (by decide), hhex _ (by decide), hhex _ (by decide), hlast, hsum, UInt16.ofNat_toNat]

theorem run_escape (u : UInt16) (rest : Units) :
    run N { stack, mode := .str read .plain } (escape u ++ rest) = run N { stack, mode := .str (read ++ [u]) .plain } rest := by
  unfold escape
  split_ifs with h₁ h₂ h₃ h₄ h₅ h₆ h₇ h₈
  · subst h₁
    exact run_shortEscape (c := 0x62) (by decide) (by decide) rest
  · subst h₂
    exact run_shortEscape (c := 0x74) (by decide) (by decide) rest
  · subst h₃
    exact run_shortEscape (c := 0x6e) (by decide) (by decide) rest
  · subst h₄
    exact run_shortEscape (c := 0x66) (by decide) (by decide) rest
  · subst h₅
    exact run_shortEscape (c := 0x72) (by decide) (by decide) rest
  · subst h₆
    exact run_shortEscape (c := 0x22) (by decide) (by decide) rest
  · subst h₇
    exact run_shortEscape (c := 0x5c) (by decide) (by decide) rest
  · exact run_hexEscape u rest
  · simp only [Bool.or_eq_true, decide_eq_true_eq, not_or] at h₈
    exact run_cons_of_step (step_plain h₆ h₇ h₈.1.1) rest

theorem step_surrogate (h : (isHigh u || isLow u) = true) :
    step N { stack, mode := .str read .plain } u = some { stack, mode := .str (read ++ [u]) .plain } := by
  have hge : 0xd800 ≤ u.toNat := by
    simp only [isHigh, isLow, Bool.or_eq_true, Bool.and_eq_true, decide_eq_true_eq] at h
    rcases h with h | h
    · exact UInt16.le_iff_toNat_le.1 h.1
    · exact Nat.le_trans (by decide : 0xd800 ≤ 0xdc00) (UInt16.le_iff_toNat_le.1 h.1)
  have hcontrol : ¬u < 0x20 := fun hlt => absurd (hge.trans_lt (UInt16.lt_iff_toNat_lt.1 hlt)) (by decide)
  refine step_plain ?_ ?_ hcontrol <;>
  · rintro rfl
    exact absurd hge (by decide)

theorem run_quoteBody {paired : Bool} {s : Units} (hp : paired = true → s.head?.all isLow = true) (read rest : Units) :
    run N { stack, mode := .str read .plain } (quoteBody paired s ++ rest) = run N { stack, mode := .str (read ++ s) .plain } rest := by
  induction s generalizing paired read with
  | nil => rw [quoteBody_nil, List.nil_append, List.append_nil]
  | cons u s ih =>
    have hfree : false = true → s.head?.all isLow = true := nofun
    cases paired with
    | true =>
      have hlow : isLow u = true := hp rfl
      rw [quoteBody, List.cons_append, run_cons_of_step (step_surrogate (by rw [hlow, Bool.or_true])), ih hfree, List.append_assoc,
        List.singleton_append]
    | false =>
      rw [quoteBody]
      by_cases hpairs : pairs u s = true
      · have hhigh : isHigh u = true ∧ s.head?.any isLow = true := by rwa [pairs, Bool.and_eq_true] at hpairs
        have hnext : s.head?.all isLow = true := by
          obtain ⟨v, hv, hl⟩ := (Option.any_eq_true _ _).1 hhigh.2
          rw [hv]
          exact hl
        rw [if_pos hpairs, List.cons_append, run_cons_of_step (step_surrogate (by rw [hhigh.1, Bool.true_or])), ih fun _ => hnext,
          List.append_assoc, List.singleton_append]
      · rw [if_neg hpairs, List.append_assoc, run_escape, ih hfree, List.append_assoc, List.singleton_append]

theorem run_quote (s rest : Units) :
    run N { stack, mode := .str [] .plain } (quoteBody false s ++ 0x22 :: rest) = run N (closeString s stack) rest := by
  have hfree : false = true → s.head?.all isLow = true := nofun
  rw [run_quoteBody hfree, List.nil_append, run_cons_of_step]
  rfl

/-- What stands behind a value: a comma, or the end of what it is in. -/
def isDelimiter (u : UInt16) : Bool := u = 0x2c || u = 0x5d || u = 0x7d

/-- A value can begin: the object on top waits for one. -/
def Ready : List Frame → Prop
  | .obj _ none :: _ => False
  | _ => True

/-- A value or an item comes next. -/
def Expects (mode : Mode) : Prop := mode = .value ∨ mode = .item

variable {mode : Mode}

theorem step_begins (hmode : Expects mode) (hspace : isJsonSpace u = false) (hu : u ≠ 0x5d) :
    step N { stack, mode } u = begins u stack := by
  rcases hmode with rfl | rfl
  · simp only [step, plainStep, hspace, Bool.false_eq_true, if_false]
  · simp only [step, plainStep, hspace, Bool.false_eq_true, if_false, if_neg hu]

theorem step_complete (v : Value) (stack : List Frame) (u : UInt16) : step N (complete v stack) u = plainStep (complete v stack) u := by
  unfold complete
  split <;> rfl

variable {w : Units}

theorem run_within (hw : ∀ u ∈ w, isWord u = true) (read rest : Units) :
    run N { stack, mode := .word read } (w ++ rest) = run N { stack, mode := .word (read ++ w) } rest := by
  induction w generalizing read with
  | nil => rw [List.nil_append, List.append_nil]
  | cons u w ih =>
    have hstep : step N { stack, mode := .word read } u = some { stack, mode := .word (read ++ [u]) } := by
      simp only [step, if_pos (hw u List.mem_cons_self)]
    rw [List.cons_append, run_cons_of_step hstep, ih fun v hv => hw v (List.mem_cons_of_mem _ hv), List.append_assoc, List.singleton_append]

theorem isWord_of_delimiter (h : isDelimiter u = true) : isWord u = false := by
  simp only [isDelimiter, Bool.or_eq_true, decide_eq_true_eq] at h
  rcases h with (rfl | rfl) | rfl <;> rfl

variable {v : Value}

theorem run_word (hmode : Expects mode) (hne : w ≠ []) (hw : ∀ u ∈ w, isWord u = true)
    (hv : wordValue N w = some v) (hu : isDelimiter u = true) (rest : Units) :
    run N { stack, mode } (w ++ u :: rest) = run N (complete v stack) (u :: rest) := by
  cases w with
  | nil => exact absurd rfl hne
  | cons c w =>
    have hc := hw c List.mem_cons_self
    have hplain : isJsonSpace c = false ∧ c ≠ 0x22 ∧ c ≠ 0x7b ∧ c ≠ 0x5b ∧ c ≠ 0x5d := by
      simp only [isWord, Bool.not_eq_true', Bool.or_eq_false_iff, decide_eq_false_iff_not] at hc
      exact ⟨hc.1.1.1.1.1.1.1, hc.2, hc.1.1.1.1.1.1.2, hc.1.1.1.1.2, hc.1.1.1.2⟩
    have hbegin : step N { stack, mode } c = some { stack, mode := .word [c] } := by
      rw [step_begins hmode hplain.1 hplain.2.2.2.2, begins, if_neg hplain.2.1, if_neg hplain.2.2.1, if_neg hplain.2.2.2.1, if_pos hc]
    have hend : step N { stack, mode := .word (c :: w) } u = step N (complete v stack) u := by
      rw [step_complete]
      simp only [step, isWord_of_delimiter hu, Bool.false_eq_true, if_false, hv, Option.bind_some]
    rw [List.cons_append, run_cons_of_step hbegin, run_within fun u hu => hw u (List.mem_cons_of_mem _ hu), List.singleton_append, run, run, hend]

/-- What is printed of a value is read as the value, before a delimiter. -/
def ReadsBack (N : Numbers) (v : Value) : Prop :=
  ∀ (stack : List Frame) (mode : Mode) (u : UInt16) (rest : Units), Expects mode → Ready stack → isDelimiter u = true →
    run N { stack, mode } (v.stringify ++ u :: rest) = run N (complete v.written stack) (u :: rest)

theorem readsBack_word {w : Value} {word : Units} (hs : v.stringify = word) (hw : v.written = w) (hne : word ≠ [])
    (hall : ∀ u ∈ word, isWord u = true) (hvalue : wordValue N word = some w) : ReadsBack N v := by
  intro stack mode u rest hmode _ hu
  rw [hs, hw]
  exact run_word hmode hne hall hvalue hu rest

theorem isWord_of_numeric (h : isNumeric u = true) : isWord u = true := by
  simp only [isNumeric, Bool.or_eq_true, Bool.and_eq_true, decide_eq_true_eq, UInt16.le_iff_toNat_le] at h
  simp only [isWord, isJsonSpace, Bool.not_eq_true', Bool.or_eq_false_iff, decide_eq_false_iff_not]
  refine ⟨⟨⟨⟨⟨⟨⟨⟨⟨⟨?_, ?_⟩, ?_⟩, ?_⟩, ?_⟩, ?_⟩, ?_⟩, ?_⟩, ?_⟩, ?_⟩, ?_⟩ <;>
  · rintro rfl
    revert h
    decide

theorem wordValue_text {token : Units} {n : Numeral} (h : N.read token = some n) : wordValue N n.text = some (.num (some n)) := by
  have hne : ∀ c t, n.text = c :: t → (0x30 ≤ c ∧ c ≤ 0x39) ∨ c = 0x2d := by
    intro c t heq
    obtain ⟨u, hu, hbegins⟩ := n.begins
    rw [heq] at hu
    exact Option.some.inj hu ▸ hbegins
  have hnull : n.text ≠ ofString "null" := fun heq => absurd (hne 0x6e [0x75, 0x6c, 0x6c] heq) (by decide)
  have htrue : n.text ≠ ofString "true" := fun heq => absurd (hne 0x74 [0x72, 0x75, 0x65] heq) (by decide)
  have hfalse : n.text ≠ ofString "false" := fun heq => absurd (hne 0x66 [0x61, 0x6c, 0x73, 0x65] heq) (by decide)
  rw [wordValue, if_neg hnull, if_neg htrue, if_neg hfalse, if_pos (N.isNumber_text token n h), N.read_text token n h]

theorem isWord_of_all (h : w.all isWord = true) : ∀ u ∈ w, isWord u = true := List.all_eq_true.1 h

theorem readsBack_str (s : Units) : ReadsBack N (.str s) := by
  intro stack mode u rest hmode hready _
  have hbegin : step N { stack, mode } 0x22 = some { stack, mode := .str [] .plain } := step_begins hmode rfl (by decide)
  have hclose : closeString s stack = complete (.str s) stack := by
    unfold closeString
    split
    · exact absurd hready id
    · rfl
  rw [Value.stringify, Value.written, quote, List.cons_append, run_cons_of_step hbegin, List.append_assoc, List.singleton_append, run_quote,
    hclose]

theorem run_items {items : List Value} (hread : ∀ v ∈ items, ReadsBack N v) (hne : items ≠ []) (stack : List Frame) (rest : Units) :
    ∀ (before : List Value) (mode : Mode), Expects mode →
      run N { stack := .arr before :: stack, mode } (commas (Value.stringifyItems items) ++ 0x5d :: rest) =
        run N (complete (.arr (before ++ Value.writtenItems items)) stack) rest := by
  induction items with
  | nil => exact absurd rfl hne
  | cons v items ih =>
    intro before mode hmode
    have hv := hread v List.mem_cons_self
    cases items with
    | nil =>
      rw [Value.stringifyItems, Value.stringifyItems, commas, joined, List.intercalate_singleton, hv (.arr before :: stack) mode _ _ hmode trivial rfl,
        run_cons_of_step (n := complete (.arr (before ++ [v.written])) stack) rfl]
      rfl
    | cons w items =>
      rw [Value.stringifyItems, Value.stringifyItems, commas, joined_cons_cons, List.append_assoc, List.cons_append,
        hv (.arr before :: stack) mode _ _ hmode trivial rfl,
        run_cons_of_step (n := { stack := .arr (before ++ [v.written]) :: stack, mode := .value }) rfl,
        ← Value.stringifyItems, ← commas, ih (fun x hx => hread x (List.mem_cons_of_mem _ hx)) (List.cons_ne_nil _ _) _ _ (.inl rfl),
        List.append_assoc]
      rfl

/-- A key comes next, and may. -/
def ExpectsKey (mode : Mode) : Prop := mode = .member ∨ mode = .name

theorem run_key {before : List (Units × Value)} (hmode : ExpectsKey mode) (key rest : Units) :
    run N { stack := .obj before none :: stack, mode } (quote key ++ 0x3a :: rest) =
      run N { stack := .obj before (some key) :: stack, mode := .value } rest := by
  have hbegin : step N { stack := .obj before none :: stack, mode } 0x22 =
      some { stack := .obj before none :: stack, mode := .str [] .plain } := by
    rcases hmode with rfl | rfl <;> rfl
  rw [quote, List.cons_append, run_cons_of_step hbegin, List.append_assoc, List.singleton_append, run_quote]
  exact run_cons_of_step rfl rest

theorem run_fields {fields : List (Units × Value)} (hread : ∀ f ∈ fields, ReadsBack N f.2) (hne : fields ≠ []) (hordered : Ordered fields)
    (stack : List Frame) (rest : Units) :
    ∀ (before : List (Units × Value)) (mode : Mode), ExpectsKey mode →
      (∀ f ∈ before, ∀ g ∈ fields, f.1 ≠ g.1 ∧ precedes g.1 f.1 = true) →
      run N { stack := .obj before none :: stack, mode } (commas (Value.stringifyFields fields) ++ 0x7d :: rest) =
        run N (complete (.obj (before ++ Value.writtenFields fields)) stack) rest := by
  induction fields with
  | nil => exact absurd rfl hne
  | cons f fields ih =>
    intro before mode hmode hbefore
    obtain ⟨key, v⟩ := f
    have hv : ReadsBack N v := hread (key, v) List.mem_cons_self
    have hset : setField key v.written before = before ++ [(key, v.written)] :=
      setField_snoc fun f hf => hbefore f hf (key, v) List.mem_cons_self
    have hcomplete : complete v.written (.obj before (some key) :: stack) =
        { stack := .obj (before ++ [(key, v.written)]) none :: stack, mode := .more } := by
      rw [complete, Option.getD_some, hset]
    cases fields with
    | nil =>
      rw [Value.stringifyFields, Value.stringifyFields, commas, joined, List.intercalate_singleton, member, List.append_assoc,
        List.cons_append, run_key hmode, hv (.obj before (some key) :: stack) .value _ _ (.inl rfl) trivial rfl, hcomplete,
        run_cons_of_step (n := complete (.obj (before ++ [(key, v.written)])) stack) rfl]
      rfl
    | cons g fields =>
      obtain ⟨key', w⟩ := g
      rw [Value.stringifyFields, Value.stringifyFields, commas, joined_cons_cons, member, List.append_assoc, List.append_assoc,
        List.cons_append, List.cons_append, run_key hmode, hv (.obj before (some key) :: stack) .value _ _ (.inl rfl) trivial rfl, hcomplete,
        run_cons_of_step (n := { stack := .obj (before ++ [(key, v.written)]) none :: stack, mode := .name }) rfl,
        ← Value.stringifyFields, ← commas,
        ih (fun x hx => hread x (List.mem_cons_of_mem _ hx)) (List.cons_ne_nil _ _) hordered.of_cons _ _ (.inr rfl),
        List.append_assoc]
      · rfl
      · intro f hf g hg
        rcases List.mem_append.1 hf with hf | hf
        · exact hbefore f hf g (List.mem_cons_of_mem _ hg)
        · rw [List.mem_singleton.1 hf]
          exact (List.pairwise_cons.1 hordered).1 g hg

theorem run_arr {items : List Value} (hread : ∀ v ∈ items, ReadsBack N v) {stack : List Frame} {mode : Mode} (hmode : Expects mode)
    (rest : Units) : run N { stack, mode } ((Value.arr items).stringify ++ rest) = run N (complete (Value.arr items).written stack) rest := by
  have hbegin : step N { stack, mode } 0x5b = some { stack := .arr [] :: stack, mode := .item } := step_begins hmode rfl (by decide)
  rw [Value.stringify, List.cons_append, run_cons_of_step hbegin, List.append_assoc, List.singleton_append, Value.written]
  cases items with
  | nil => exact run_cons_of_step rfl rest
  | cons v items => rw [run_items hread (List.cons_ne_nil _ _) stack rest [] .item (.inr rfl), List.nil_append]

theorem run_obj {fields : List (Units × Value)} (hread : ∀ f ∈ fields, ReadsBack N f.2) (hordered : Ordered fields) {stack : List Frame}
    {mode : Mode} (hmode : Expects mode) (rest : Units) :
    run N { stack, mode } ((Value.obj fields).stringify ++ rest) = run N (complete (Value.obj fields).written stack) rest := by
  have hbegin : step N { stack, mode } 0x7b = some { stack := .obj [] none :: stack, mode := .member } := step_begins hmode rfl (by decide)
  rw [Value.stringify, List.cons_append, run_cons_of_step hbegin, List.append_assoc, List.singleton_append, Value.written]
  cases fields with
  | nil => exact run_cons_of_step rfl rest
  | cons f fields =>
    rw [run_fields hread (List.cons_ne_nil _ _) hordered stack rest [] .member (.inl rfl) fun x hx => absurd hx List.not_mem_nil,
      List.nil_append]

theorem readsBack_of_canon (h : v.Canon N) : ReadsBack N v := by
  induction h with
  | null | infinite => exact readsBack_word rfl rfl (by decide) (isWord_of_all (by decide)) rfl
  | bool b =>
    cases b with
    | true | false => exact readsBack_word rfl rfl (by decide) (isWord_of_all (by decide)) rfl
  | @num token n hread =>
    refine readsBack_word rfl rfl (fun hnil => ?_) (fun u hu => isWord_of_numeric (n.numeric u hu)) (wordValue_text hread)
    have htext : n.text = [] := hnil
    obtain ⟨u, hu, -⟩ := n.begins
    rw [htext] at hu
    cases hu
  | str s => exact readsBack_str s
  | arr _ ih => exact fun stack mode u rest hmode _ _ => run_arr ih hmode (u :: rest)
  | obj hordered _ ih => exact fun stack mode u rest hmode _ _ => run_obj ih hordered hmode (u :: rest)

end JsonTextAux

/-- What is printed of an object or an array that was read is read back, with `null` for each number that is not finite. -/
theorem parse_stringify {N : Numbers} (h : v.Canon N) (hv : v.isObject = true) : parse N v.stringify = some v.written := by
  have hrun : run N Machine.start v.stringify = some (complete v.written []) := by
    cases h with
    | arr hitems =>
      have hread := @JsonTextAux.run_arr N _ (fun v hv => JsonTextAux.readsBack_of_canon (hitems v hv)) [] _ (.inl rfl) []
      rwa [List.append_nil] at hread
    | obj hordered hfields =>
      have hread := @JsonTextAux.run_obj N _ (fun f hf => JsonTextAux.readsBack_of_canon (hfields f hf)) hordered [] _ (.inl rfl) []
      rwa [List.append_nil] at hread
    | null | bool | infinite | num | str => cases hv
  rw [parse, hrun]
  rfl

end Ecma
