import SchemaCodeGen.Fallible
import SchemaCodeGen.Json

namespace SchemaCodeGen.Sax

open CString Floats Json Fallible

inductive Event
  | null
  | bool (b : Bool)
  | int (n : Int)
  | uint (n : Int)
  | int64 (n : Int)
  | uint64 (n : Int)
  | double (x : Ieee)
  | string (s : Text)
  | key (s : Text)
  | startObject
  | endObject (memberCount : Nat)
  | startArray
  | endArray (elementCount : Nat)
  deriving DecidableEq

inductive ParseErrorCode
  | documentEmpty
  | documentRootNotSingular
  | valueInvalid
  | objectMissName
  | objectMissColon
  | objectMissCommaOrCurlyBracket
  | arrayMissCommaOrSquareBracket
  | stringUnicodeEscapeInvalidHex
  | stringUnicodeSurrogateInvalid
  | stringEscapeInvalid
  | stringMissQuotationMark
  | stringInvalidEncoding
  | numberTooBig
  | numberMissFraction
  | numberMissExponent
  | termination
  deriving DecidableEq, Repr

/-- Why a reader or a handler does not go on: a parse error where `rest` is still unread,
a character taken behind the terminator, a failed assertion, a signed overflow, or the
recursion bound of the model. -/
inductive Stop
  | error (code : ParseErrorCode) (rest : Text)
  | overrun
  | assertion
  | overflow
  | fuel
  deriving DecidableEq, Repr

abbrev Step := Except Stop

abbrev Handler (σ : Type) := Event → σ → Step (Bool × σ)

section Feed

variable {σ : Type} (h : Handler σ)

/-- The state after all events, when the handler wants to go on after each. -/
def feed : List Event → σ → Option σ
  | [], s => some s
  | e :: es, s =>
      match h e s with
      | .ok (true, s) => feed es s
      | _ => none

@[simp] theorem feed_nil (s : σ) : feed h [] s = some s := rfl

variable {h}

theorem feed_cons {e : Event} {s s' : σ} (he : h e s = .ok (true, s')) (es : List Event) :
    feed h (e :: es) s = feed h es s' := by rw [feed, he]

theorem feed_cons_eq_some {e : Event} {es : List Event} {s s'' : σ}
    (hf : feed h (e :: es) s = some s'') :
    ∃ s', h e s = .ok (true, s') ∧ feed h es s' = some s'' := by
  rw [feed] at hf
  split at hf
  next s' he => exact ⟨s', he, hf⟩
  next => exact absurd hf (by simp)

theorem feed_append (es es' : List Event) (s : σ) :
    feed h (es ++ es') s = (feed h es s).bind (feed h es') := by
  induction es generalizing s with
  | nil => rfl
  | cons e es ih =>
      rw [List.cons_append, feed, feed]
      split
      next s' he => exact ih s'
      next => rfl

theorem feed_append_eq_some {es es' : List Event} {s s'' : σ} :
    feed h (es ++ es') s = some s'' ↔ ∃ s', feed h es s = some s' ∧ feed h es' s' = some s'' := by
  rw [feed_append, Option.bind_eq_some_iff]

end Feed

section Accept

variable {σ : Type} (h : Handler σ)

def isInt (n : Int) : Bool := decide (-2 ^ 31 ≤ n) && decide (n < 2 ^ 31)
def isUint (n : Int) : Bool := decide (0 ≤ n) && decide (n < 2 ^ 32)
def isInt64 (n : Int) : Bool := decide (-2 ^ 63 ≤ n) && decide (n < 2 ^ 63)

/-- The narrowest accessor announces the number. -/
def acceptNumber : Number → Event
  | .double x => .double x
  | .int n =>
      if isInt n then .int n
      else if isUint n then .uint n
      else if isInt64 n then .int64 n
      else .uint64 n

mutual

def accept : Value → σ → Step (Bool × σ)
  | .null, s => h .null s
  | .bool b, s => h (.bool b) s
  | .number n, s => h (acceptNumber n) s
  | .string t, s => h (.string t) s
  | .array items, s => do
      let (go, s) ← h .startArray s
      if !go then .ok (false, s)
      else
        let (go, s) ← acceptItems items s
        if !go then .ok (false, s) else h (.endArray items.length) s
  | .object members, s => do
      let (go, s) ← h .startObject s
      if !go then .ok (false, s)
      else
        let (go, s) ← acceptMembers members s
        if !go then .ok (false, s) else h (.endObject members.length) s

def acceptItems : List Value → σ → Step (Bool × σ)
  | [], s => .ok (true, s)
  | j :: items, s => do
      let (go, s) ← accept j s
      if !go then .ok (false, s) else acceptItems items s

def acceptMembers : List (Text × Value) → σ → Step (Bool × σ)
  | [], s => .ok (true, s)
  | (name, j) :: members, s => do
      let (go, s) ← h (.key name) s
      if !go then .ok (false, s)
      else
        let (go, s) ← accept j s
        if !go then .ok (false, s) else acceptMembers members s

end

end Accept

section Events

-- How numbers are announced.
variable (number : Number → Event)

mutual

def events : Value → List Event
  | .null => [.null]
  | .bool b => [.bool b]
  | .number n => [number n]
  | .string t => [.string t]
  | .array items => .startArray :: (eventsItems items ++ [.endArray items.length])
  | .object members => .startObject :: (eventsMembers members ++ [.endObject members.length])

def eventsItems : List Value → List Event
  | [] => []
  | j :: items => events j ++ eventsItems items

def eventsMembers : List (Text × Value) → List Event
  | [] => []
  | (name, j) :: members => .key name :: (events j ++ eventsMembers members)

end

end Events

theorem value_induction {P : Value → Prop} (null : P .null) (bool : ∀ b, P (.bool b))
    (number : ∀ n, P (.number n)) (string : ∀ t, P (.string t))
    (array : ∀ items, (∀ j ∈ items, P j) → P (.array items))
    (object : ∀ members, (∀ e ∈ members, P e.2) → P (.object members)) (j : Value) : P j := by
  refine @Value.rec P (fun items => ∀ j ∈ items, P j) (fun members => ∀ e ∈ members, P e.2)
    (fun e => P e.2) null bool number string array object ?_ ?_ ?_ ?_ ?_ j
  · exact fun _ h => absurd h List.not_mem_nil
  · exact fun j items hj hitems => List.forall_mem_cons.mpr ⟨hj, hitems⟩
  · exact fun _ h => absurd h List.not_mem_nil
  · exact fun e members he hmembers => List.forall_mem_cons.mpr ⟨he, hmembers⟩
  · exact fun _ _ h => h

section Numbers

mutual

def numbers : Value → List Number
  | .number n => [n]
  | .array items => numbersItems items
  | .object members => numbersMembers members
  | .null | .bool _ | .string _ => []

def numbersItems : List Value → List Number
  | [] => []
  | j :: items => numbers j ++ numbersItems items

def numbersMembers : List (Text × Value) → List Number
  | [] => []
  | (_, j) :: members => numbers j ++ numbersMembers members

end

theorem mem_numbersItems {items : List Value} {n : Number} :
    n ∈ numbersItems items ↔ ∃ j ∈ items, n ∈ numbers j := by
  induction items with
  | nil => simp [numbersItems]
  | cons j items ih => rw [numbersItems, List.mem_append, ih, List.exists_mem_cons_iff]

theorem mem_numbersMembers {members : Members} {n : Number} :
    n ∈ numbersMembers members ↔ ∃ e ∈ members, n ∈ numbers e.2 := by
  induction members with
  | nil => simp [numbersMembers]
  | cons e members ih => rw [numbersMembers, List.mem_append, ih, List.exists_mem_cons_iff]

theorem numbers_item {items : List Value} {j : Value} (h : j ∈ items) {n : Number}
    (hn : n ∈ numbers j) : n ∈ numbers (.array items) := mem_numbersItems.mpr ⟨j, h, hn⟩

theorem numbers_member {members : Members} {e : Text × Value} (h : e ∈ members) {n : Number}
    (hn : n ∈ numbers e.2) : n ∈ numbers (.object members) := mem_numbersMembers.mpr ⟨e, h, hn⟩

end Numbers

section Accepted

variable {σ : Type} {h : Handler σ}

theorem acceptItems_of_feed {items : List Value} {s s' : σ}
    (hj : ∀ j ∈ items, ∀ s s', feed h (events acceptNumber j) s = some s' →
      accept h j s = .ok (true, s'))
    (hf : feed h (eventsItems acceptNumber items) s = some s') :
    acceptItems h items s = .ok (true, s') := by
  induction items generalizing s with
  | nil => rw [acceptItems, Option.some.inj hf]
  | cons j items ih =>
      obtain ⟨t, hhead, htail⟩ := feed_append_eq_some.mp hf
      rw [List.forall_mem_cons] at hj
      rw [acceptItems, hj.1 s t hhead]
      exact ih hj.2 htail

theorem acceptMembers_of_feed {members : Members} {s s' : σ}
    (hj : ∀ e ∈ members, ∀ s s', feed h (events acceptNumber e.2) s = some s' →
      accept h e.2 s = .ok (true, s'))
    (hf : feed h (eventsMembers acceptNumber members) s = some s') :
    acceptMembers h members s = .ok (true, s') := by
  induction members generalizing s with
  | nil => rw [acceptMembers, Option.some.inj hf]
  | cons e members ih =>
      obtain ⟨name, j⟩ := e
      obtain ⟨t, hkey, hrest⟩ := feed_cons_eq_some hf
      obtain ⟨u, hhead, htail⟩ := feed_append_eq_some.mp hrest
      rw [List.forall_mem_cons] at hj
      simp only [acceptMembers, hkey, ok_bind, hj.1 t u hhead]
      exact ih hj.2 htail

theorem accept_of_feed {j : Value} {s s' : σ} (hf : feed h (events acceptNumber j) s = some s') :
    accept h j s = .ok (true, s') := by
  induction j using value_induction generalizing s s' with
  | null | bool _ | number _ | string _ =>
      obtain ⟨t, he, hnil⟩ := feed_cons_eq_some hf
      obtain rfl := Option.some.inj hnil
      exact he
  | array items ih =>
      obtain ⟨t, hstart, hrest⟩ := feed_cons_eq_some hf
      obtain ⟨u, hitems, hend⟩ := feed_append_eq_some.mp hrest
      obtain ⟨v, he, hnil⟩ := feed_cons_eq_some hend
      obtain rfl := Option.some.inj hnil
      have hall := acceptItems_of_feed (fun j hj s s' => ih j hj) hitems
      simp only [accept, hstart, ok_bind, hall]
      exact he
  | object members ih =>
      obtain ⟨t, hstart, hrest⟩ := feed_cons_eq_some hf
      obtain ⟨u, hmembers, hend⟩ := feed_append_eq_some.mp hrest
      obtain ⟨v, he, hnil⟩ := feed_cons_eq_some hend
      obtain rfl := Option.some.inj hnil
      have hall := acceptMembers_of_feed (fun e he s s' => ih e he) hmembers
      simp only [accept, hstart, ok_bind, hall]
      exact he

end Accepted

section Build

def pairs : List Value → Option Members
  | [] => some []
  | .string name :: j :: rest => (pairs rest).map ((name, j) :: ·)
  | _ => none

def arrayOf (items : List Value) : Option Value := some (.array items)

def objectOf (entries : List Value) : Option Value := (pairs entries).map Value.object

/-- Pops the entries of the container that ends, and leaves `container` of them in the
place of the value below, which its start pushed. -/
def close (count : Nat) (container : List Value → Option Value) (stack : List Value) :
    Step (Bool × List Value) :=
  if count ≤ stack.length then
    match container (stack.take count).reverse, stack.drop count with
    | some j, _ :: rest => .ok (true, j :: rest)
    | _, _ => .error .assertion
  else .error .assertion

/-- The events as `GenericDocument` takes them, with the top of its stack first. -/
def build : Handler (List Value)
  | .null, stack => .ok (true, .null :: stack)
  | .bool b, stack => .ok (true, .bool b :: stack)
  | .int n, stack | .uint n, stack | .int64 n, stack | .uint64 n, stack =>
      .ok (true, .number (.int n) :: stack)
  | .double x, stack => .ok (true, .number (.double x) :: stack)
  | .string s, stack | .key s, stack => .ok (true, .string s :: stack)
  | .startObject, stack => .ok (true, .object [] :: stack)
  | .startArray, stack => .ok (true, .array [] :: stack)
  | .endObject memberCount, stack =>
      close (2 * memberCount) objectOf stack
  | .endArray elementCount, stack => close elementCount arrayOf stack

theorem close_append {container : List Value → Option Value} {entries : List Value} {j : Value}
    (hc : container entries = some j) (below : Value) (stack : List Value) :
    close entries.length container (entries.reverse ++ below :: stack) = .ok (true, j :: stack) := by
  have hlen : entries.length = entries.reverse.length := by simp
  have htake : (entries.reverse ++ below :: stack).take entries.length = entries.reverse := by
    rw [hlen, List.take_left]
  have hdrop : (entries.reverse ++ below :: stack).drop entries.length = below :: stack := by
    rw [hlen, List.drop_left]
  have hle : entries.length ≤ (entries.reverse ++ below :: stack).length := by
    rw [List.length_append, ← hlen]
    exact Nat.le_add_right _ _
  simp only [close, if_pos hle, htake, hdrop, List.reverse_reverse, hc]

def flat (members : Members) : List Value :=
  members.flatMap fun e => [.string e.1, e.2]

theorem pairs_flat (members : Members) : pairs (flat members) = some members := by
  induction members with
  | nil => rfl
  | cons e members ih =>
      have hcons : flat (e :: members) = .string e.1 :: e.2 :: flat members := rfl
      rw [hcons, pairs, ih]
      rfl

theorem length_flat (members : Members) : (flat members).length = 2 * members.length := by
  induction members with
  | nil => rfl
  | cons e members ih =>
      have hcons : flat (e :: members) = .string e.1 :: e.2 :: flat members := rfl
      rw [hcons, List.length_cons, List.length_cons, List.length_cons, ih]
      omega

/-- `number` announces numbers so that the document keeps their value. -/
def Announces (number : Number → Event) : Prop :=
  ∀ n stack, build (number n) stack = .ok (true, .number n :: stack)

theorem announces_acceptNumber : Announces acceptNumber := by
  intro n stack
  cases n with
  | double x => rfl
  | int n =>
      rw [acceptNumber]
      split_ifs <;> rfl

variable {number : Number → Event}

theorem feed_build_items {items : List Value}
    (hj : ∀ j ∈ items, ∀ stack, feed build (events number j) stack = some (j :: stack))
    (stack : List Value) :
    feed build (eventsItems number items) stack = some (items.reverse ++ stack) := by
  induction items generalizing stack with
  | nil => rfl
  | cons j items ih =>
      rw [List.forall_mem_cons] at hj
      rw [eventsItems, feed_append, hj.1, Option.bind_some, ih hj.2]
      simp

theorem feed_build_members {members : Members}
    (hj : ∀ e ∈ members, ∀ stack, feed build (events number e.2) stack = some (e.2 :: stack))
    (stack : List Value) :
    feed build (eventsMembers number members) stack = some ((flat members).reverse ++ stack) := by
  induction members generalizing stack with
  | nil => rfl
  | cons e members ih =>
      obtain ⟨name, j⟩ := e
      rw [List.forall_mem_cons] at hj
      have hkey : build (.key name) stack = .ok (true, .string name :: stack) := rfl
      rw [eventsMembers, feed_cons hkey, feed_append, hj.1, Option.bind_some, ih hj.2]
      simp [flat]

theorem feed_build (hn : Announces number) (j : Value) (stack : List Value) :
    feed build (events number j) stack = some (j :: stack) := by
  induction j using value_induction generalizing stack with
  | null | bool _ | string _ => rfl
  | number n => rw [events, feed_cons (hn n stack), feed_nil]
  | array items ih =>
      have hstart : build .startArray stack = .ok (true, .array [] :: stack) := rfl
      have hc : arrayOf items = some (.array items) := rfl
      have hend : build (.endArray items.length) (items.reverse ++ .array [] :: stack) =
          .ok (true, .array items :: stack) := close_append hc _ _
      rw [events, feed_cons hstart, feed_append, feed_build_items ih, Option.bind_some,
        feed_cons hend, feed_nil]
  | object members ih =>
      have hstart : build .startObject stack = .ok (true, .object [] :: stack) := rfl
      have hend : build (.endObject members.length) ((flat members).reverse ++ .object [] :: stack) =
          .ok (true, .object members :: stack) := by
        have hc : objectOf (flat members) = some (.object members) := by
          rw [objectOf, pairs_flat, Option.map_some]
        have h := close_append hc (.object []) stack
        rwa [length_flat] at h
      rw [events, feed_cons hstart, feed_append, feed_build_members ih, Option.bind_some,
        feed_cons hend, feed_nil]

/-- A document that is accepted by the handler of a document is built again. -/
theorem accept_build (j : Value) (stack : List Value) : accept build j stack = .ok (true, j :: stack) :=
  accept_of_feed (feed_build announces_acceptNumber j stack)

end Build

end SchemaCodeGen.Sax
