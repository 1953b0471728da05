import Mathlib.Data.List.Basic
import Reprise.Grammar.Meaning
import Reprise.Proofs.Run

/-!
# Access by access

The running parsers take outcomes apart by cases and look at lists. Here the same parsers are written
with tests and checked accesses only: an outcome is asked which alternative it holds before one is
demanded, elements are read by their index, and windows are cut at an index. Each access that breaks its
precondition is a fault. The two forms of each parser are equal.
-/

namespace Reprise

variable {σ τ ε ρ α β κ : Type}

def Outcome.isError : Outcome τ ε α → Bool
  | signal g => g.isError
  | success _ _ => false

def Outcome.isIncomplete : Outcome τ ε α → Bool
  | signal g => g.isIncomplete
  | success _ _ => false

/-- The elements of a window from an index on. -/
theorem Window.exists_get {w : Window τ} {i : Nat} (h : i < w.length) :
    ∃ e, w.get i = .ok e ∧ w.elements.drop i = e :: w.elements.drop (i + 1) := by
  rw [w.length_eq] at h
  refine ⟨w.elements.get ⟨i, h⟩, ?_, List.drop_eq_getElem_cons h⟩
  unfold get
  rw [List.getElem?_eq_getElem h]
  rfl

theorem Window.drop_of_le {w : Window τ} {i : Nat} (h : w.length ≤ i) : w.elements.drop i = [] :=
  List.drop_of_length_le (w.length_eq ▸ h)

namespace Checked

/-! Reading elements by their index. -/

/-- A number of elements from an index on. -/
def elements (w : Window τ) : Nat → Nat → Except Fault (List τ)
  | 0, _ => return []
  | left + 1, i => do
    let e ← w.get i
    return e :: (← elements w left (i + 1))

theorem elements_eq {w : Window τ} {left i : Nat} (h : i + left ≤ w.length) :
    elements w left i = .ok ((w.elements.drop i).take left) := by
  induction left generalizing i with
  | zero => rfl
  | succ left ih =>
    obtain ⟨e, he, hdrop⟩ := w.exists_get (i := i) (by omega)
    rw [elements, he, ih (by omega), hdrop]
    rfl

/-- Whether a window and a pattern agree in a number of elements from an index on. -/
def agree (same : τ → ρ → Bool) (x : Window τ) (pattern : Window ρ) : Nat → Nat → Except Fault Bool
  | 0, _ => return true
  | left + 1, i => do
    let a ← x.get i
    let b ← pattern.get i
    if same a b then agree same x pattern left (i + 1) else return false

theorem agree_eq (same : τ → ρ → Bool) {x : Window τ} {pattern : Window ρ} {left i : Nat}
    (h : i + left = min x.length pattern.length) : agree same x pattern left i =
      .ok (Parser.agree same (x.elements.drop i) (pattern.elements.drop i)) := by
  induction left generalizing i with
  | zero =>
    rcases Nat.le_total x.length pattern.length with hle | hle
    · rw [Window.drop_of_le (w := x) (by omega)]
      rfl
    · rw [Window.drop_of_le (w := pattern) (by omega)]
      cases x.elements.drop i <;> rfl
  | succ left ih =>
    obtain ⟨a, ha, hx⟩ := x.exists_get (i := i) (by omega)
    obtain ⟨b, hb, hpattern⟩ := pattern.exists_get (i := i) (by omega)
    rw [agree, ha, hb, hx, hpattern, Parser.agree]
    cases hsame : same a b with
    | true =>
      rw [Bool.true_and, ← ih (by omega)]
      exact if_pos hsame
    | false => exact if_neg (Bool.eq_false_iff.mp hsame)

/-- The end of the run of elements that pass a test, from an index on. -/
def runEnd (test : τ → Bool) (x : Window τ) : Nat → Nat → Except Fault Nat
  | 0, n => return n
  | left + 1, n =>
    if n < x.length then do
      if test (← x.get n) then runEnd test x left (n + 1) else return n
    else return n

theorem runEnd_eq (test : τ → Bool) {x : Window τ} {left n : Nat} (h : x.length ≤ n + left) :
    runEnd test x left n = .ok (n + ((x.elements.drop n).takeWhile test).length) := by
  induction left generalizing n with
  | zero =>
    rw [Window.drop_of_le (w := x) (i := n) h]
    rfl
  | succ left ih =>
    unfold runEnd
    by_cases hn : n < x.length
    · obtain ⟨e, he, hdrop⟩ := x.exists_get hn
      rw [if_pos hn, he, hdrop, List.takeWhile_cons]
      cases htest : test e with
      | true =>
        simp only [if_true, List.length_cons]
        refine (if_pos htest).trans ((ih (by omega)).trans ?_)
        congr 1
        omega
      | false => exact if_neg (Bool.eq_false_iff.mp htest)
    · rw [if_neg hn, Window.drop_of_le (Nat.le_of_not_lt hn)]
      rfl

/-- Takes a further byte of a number, most significant first. -/
def appendByte (n : Nat) (b : UInt8) : Nat := n * 256 + b.toNat

/-- Where the byte number `i` stands, counted from the most significant one. -/
def place (order : ByteOrder) (width i : Nat) : Nat :=
  match order with
  | .big => i
  | .little => width - 1 - i

/-- Reads the bytes of a number one by one, most significant first. -/
def number [Element τ] (order : ByteOrder) (width : Nat) (x : Window τ) :
    Nat → Nat → Nat → Except Fault Nat
  | 0, _, acc => return acc
  | left + 1, i, acc => do
    let e ← x.get (place order width i)
    number order width x left (i + 1) (appendByte acc (Element.octet e))

theorem value_eq_foldl (bs : List UInt8) : ByteOrder.value bs = bs.reverse.foldl appendByte 0 := by
  induction bs with
  | nil => rfl
  | cons b bs ih =>
    rw [List.reverse_cons, List.foldl_append, ← ih, ByteOrder.value, Nat.add_comm, Nat.mul_comm]
    rfl

/-- The bytes of a number, most significant first. -/
def digits [Element τ] (order : ByteOrder) (width : Nat) (x : Window τ) : List UInt8 :=
  (order.arrange ((x.take width).elements.map Element.octet)).reverse

theorem digits_drop [Element τ] (order : ByteOrder) {width i : Nat} {x : Window τ}
    (hx : width ≤ x.length) (hi : i < width) : ∃ e, x.get (place order width i) = .ok e ∧
      (digits order width x).drop i = Element.octet e :: (digits order width x).drop (i + 1) := by
  have hlen : x.elements.length = x.length := x.length_eq.symm
  have hdigits : i < (digits order width x).length := by
    simp only [digits, List.length_reverse, ByteOrder.length_arrange, List.length_map,
      Window.elements_take, List.length_take, hlen]
    omega
  have hplace : place order width i < x.length := by cases order <;> simp only [place] <;> omega
  obtain ⟨e, he, hdrop⟩ := x.exists_get hplace
  have hget : x.elements[place order width i]? = some e := by
    rw [← List.head?_drop, hdrop]
    rfl
  obtain ⟨_, rfl⟩ := List.getElem?_eq_some_iff.mp hget
  refine ⟨_, he, ?_⟩
  rw [List.drop_eq_getElem_cons hdigits]
  cases order with
  | big => simp [digits, ByteOrder.arrange, place]
  | little => simp [digits, ByteOrder.arrange, place, hlen, Nat.min_eq_left hx]

theorem number_eq [Element τ] (order : ByteOrder) {width : Nat} {x : Window τ}
    (hx : width ≤ x.length) {left i : Nat} (h : i + left = width) (acc : Nat) :
    number order width x left i acc = .ok (((digits order width x).drop i).foldl appendByte acc) := by
  induction left generalizing i acc with
  | zero =>
    have hdigits : (digits order width x).length ≤ i := by
      simp only [digits, List.length_reverse, ByteOrder.length_arrange, List.length_map,
        Window.elements_take, List.length_take]
      omega
    rw [List.drop_of_length_le hdigits]
    rfl
  | succ left ih =>
    obtain ⟨e, he, hdrop⟩ := digits_drop order hx (i := i) (by omega)
    rw [number, he, hdrop]
    exact ih (by omega) _

/-! Primitive parsers. A single element is read by its index already. -/

section

variable [Payload τ ε]

def tag (same : τ → ρ → Bool) (mode : Mode) (pattern : List ρ) : Parser σ τ ε (Window τ) := fun x => do
  if ← Run.demand (agree same x (.ofList pattern) (min x.length pattern.length) 0) then
    if x.length < pattern.length then return Parser.tooShort mode .tag pattern.length x
    else
      let (found, rest) ← Run.demand (x.split pattern.length)
      return .success found rest
  else return .errorAt x .tag

theorem tag_eq (same : τ → ρ → Bool) (mode : Mode) (pattern : List ρ) :
    (tag same mode pattern : Parser σ τ ε (Window τ)) = Parser.tag same mode pattern := by
  funext x
  have hagree : agree same x (.ofList pattern) (min x.length pattern.length) 0 =
    .ok (Parser.agree same x.elements pattern) := agree_eq same (Nat.zero_add _)
  unfold tag
  rw [hagree, Run.demand_ok, pure_bind]
  rfl

def takeWhile (test : τ → Bool) (least : Nat) (kind : ErrorKind) : Parser σ τ ε (Window τ) := fun x => do
  let n ← Run.demand (runEnd test x x.length 0)
  if n < least then return .errorAt x kind
  else
    let (taken, rest) ← Run.demand (x.split n)
    return .success taken rest

theorem takeWhile_eq (test : τ → Bool) (least : Nat) (kind : ErrorKind) :
    (takeWhile test least kind : Parser σ τ ε (Window τ)) = Parser.takeWhile test least kind := by
  funext x
  unfold takeWhile
  rw [runEnd_eq test (Nat.le_add_left x.length 0), Nat.zero_add, Run.demand_ok, pure_bind]
  rfl

def uint [Element τ] (mode : Mode) (width : Width) (order : ByteOrder) : Parser σ τ ε Nat := fun x => do
  if x.length < width.bytes then return Parser.tooShort mode .eof width.bytes x
  else
    let n ← Run.demand (number order width.bytes x width.bytes 0 0)
    let (_, rest) ← Run.demand (x.split width.bytes)
    return .success n rest

theorem uint_eq [Element τ] (mode : Mode) (width : Width) (order : ByteOrder) :
    (uint mode width order : Parser σ τ ε Nat) = Parser.uint mode width order := by
  funext x
  unfold uint
  rw [Parser.uint_eq]
  by_cases h : x.length < width.bytes
  · rw [if_pos h, if_pos h]
  · have hx := Nat.le_of_not_lt h
    have hvalue : (digits order width.bytes x).foldl appendByte 0 =
        order.decode ((x.take width.bytes).elements.map Element.octet) := (value_eq_foldl _).symm
    rw [if_neg h, if_neg h, number_eq order hx (Nat.zero_add _), List.drop_zero, hvalue,
      Window.split_of_le hx]
    rfl

end

/-! Wrapping parsers. -/

def map (f : α → β) (p : Parser σ τ ε α) : Parser σ τ ε β := fun x => do
  let res ← p x
  if !res.isSuccess then return .signal (← Run.demand res.getSignal)
  else
    let (v, rest) ← Run.demand res.getSuccess
    return .success (f v) rest

theorem map_eq (f : α → β) (p : Parser σ τ ε α) : map f p = p.map f := by
  funext x
  unfold map Parser.map
  refine bind_congr fun o => ?_
  cases o <;> rfl

def opt (p : Parser σ τ ε α) : Parser σ τ ε (Option α) := fun x => do
  let res ← p x
  if res.isError then return .success none x
  else if !res.isSuccess then return .signal (← Run.demand res.getSignal)
  else
    let (v, rest) ← Run.demand res.getSuccess
    return .success (some v) rest

theorem opt_eq (p : Parser σ τ ε α) : opt p = p.opt := by
  funext x
  unfold opt Parser.opt
  refine bind_congr fun o => ?_
  rcases o with _ | (_ | _ | _) <;> rfl

def cut (p : Parser σ τ ε α) : Parser σ τ ε α := fun x => do
  let res ← p x
  if !res.isError then return res
  else
    let g ← Run.demand res.getSignal
    return .signal (.failure (← Run.demand g.getError))

theorem cut_eq (p : Parser σ τ ε α) : cut p = p.cut := by
  funext x
  unfold cut Parser.cut
  refine bind_congr fun o => ?_
  rcases o with _ | (_ | _ | _) <;> rfl

def traced (write : Event τ ε → Run σ Unit) (name : String) (p : Parser σ τ ε α) :
    Parser σ τ ε α := fun x => do
  write (.start name x)
  let res ← p x
  if res.isSuccess then
    let (_, rest) ← Run.demand res.getSuccess
    write (.success name rest)
  else
    let g ← Run.demand res.getSignal
    write (.failure name x g)
  return res

theorem traced_eq (write : Event τ ε → Run σ Unit) (name : String) (p : Parser σ τ ε α) :
    traced write name p = p.traced write name := by
  funext x
  unfold traced Parser.traced
  refine bind_congr fun _ => ?_
  refine bind_congr fun o => ?_
  cases o <;> rfl

def andThen (p : Parser σ τ ε α) (q : Parser σ τ ε β) : Parser σ τ ε (α × β) := fun x => do
  let res ← p x
  if !res.isSuccess then return .signal (← Run.demand res.getSignal)
  else
    let (v, rest) ← Run.demand res.getSuccess
    map (fun w => (v, w)) q rest

theorem andThen_eq (p : Parser σ τ ε α) (q : Parser σ τ ε β) : andThen p q = p.andThen q := by
  funext x
  unfold andThen Parser.andThen
  refine bind_congr fun o => ?_
  cases o with
  | signal g => rfl
  | success v rest =>
    change map (fun w => (v, w)) q rest = _
    rw [map_eq]
    unfold Parser.map
    refine bind_congr fun o => ?_
    cases o <;> rfl

def orElse (p q : Parser σ τ ε α) : Parser σ τ ε α := fun x => do
  let res ← p x
  if res.isError then q x else return res

theorem orElse_eq (p q : Parser σ τ ε α) : orElse p q = p.orElse q := by
  funext x
  unfold orElse Parser.orElse
  refine bind_congr fun o => ?_
  rcases o with _ | (_ | _ | _) <;> rfl

/-! Loops. -/

section

variable [Payload τ ε]

def loop (r : Repetition) (p : Parser σ τ ε α) (sink : β → α → Run σ β) :
    Nat → Nat → β → Parser σ τ ε β
  | 0, _, held, x => return .success held x
  | turns + 1, i, held, x => do
    let res ← p x
    if res.isSuccess then
      let (v, rest) ← Run.demand res.getSuccess
      if r.requireProgress && rest.length == x.length then return .errorAt x r.kind
      else
        let held ← sink held v
        loop r p sink turns (Counts.next i) held rest
    else
      let g ← Run.demand res.getSignal
      if !g.isError then return .signal g
      else if r.range.contains i then return .success held x
      else return .signal (.error (Payload.append x r.kind (← Run.demand g.getError)))

theorem loop_eq (r : Repetition) (p : Parser σ τ ε α) (sink : β → α → Run σ β) (turns i : Nat)
    (held : β) (x : Window τ) : loop r p sink turns i held x = r.loop p sink turns i held x := by
  induction turns generalizing i held x with
  | zero => rfl
  | succ turns ih =>
    unfold loop Repetition.loop
    refine bind_congr fun o => ?_
    rcases o with ⟨v, rest⟩ | (_ | _ | _)
    · change (if (r.requireProgress && rest.length == x.length) = true then _ else
        sink held v >>= fun held => loop r p sink turns (Counts.next i) held rest) = _
      rw [funext fun held => ih (Counts.next i) held rest]
    all_goals rfl

def run (r : Repetition) (p : Parser σ τ ε α) (sink : β → α → Run σ β) (held : β) :
    Parser σ τ ε β := fun x =>
  if r.range.inverted then return .failureAt x r.kind
  else loop r p sink (r.counts.turns x.length) 0 held x

theorem run_eq (r : Repetition) (p : Parser σ τ ε α) (sink : β → α → Run σ β) (held : β) :
    run r p sink held = r.run p sink held := by
  funext x
  unfold run Repetition.run
  rw [loop_eq]

/-- What a repetition answers is taken out and put together again. -/
def collect (r : Repetition) (into : Container α κ) (held : κ) (p : Parser σ τ ε α) :
    Parser σ τ ε κ :=
  map (fun held => held) (run r p (fun held v => return into.insert held v) held)

theorem collect_eq (r : Repetition) (into : Container α κ) (held : κ) (p : Parser σ τ ε α) :
    collect r into held p = Parser.collect r into held p := by
  unfold collect
  rw [map_eq, Parser.map_id, run_eq]
  rfl

def foldOver (r : Repetition) (init : Run σ β) (step : β → α → β) (p : Parser σ τ ε α) :
    Parser σ τ ε β := fun x => do
  map (fun acc => acc) (run r p (fun acc v => return step acc v) (← init)) x

theorem foldOver_eq (r : Repetition) (init : Run σ β) (step : β → α → β) (p : Parser σ τ ε α) :
    foldOver r init step p = Parser.foldOver r init step p := by
  funext x
  unfold foldOver Parser.foldOver
  refine bind_congr fun start => ?_
  rw [map_eq, Parser.map_id, run_eq]

def fill (slots : Nat) (write : Nat → α → Run σ Unit) (p : Parser σ τ ε α) : Parser σ τ ε Unit :=
  map (fun _ => ()) <| run (.fill slots) p (fun slot v => do write slot v; return slot + 1) 0

theorem fill_eq (slots : Nat) (write : Nat → α → Run σ Unit) (p : Parser σ τ ε α) :
    fill slots write p = Parser.fill slots write p := by
  unfold fill
  rw [map_eq, run_eq]
  rfl

def manyTillLoop (into : Container α κ) (p : Parser σ τ ε α) (till : Parser σ τ ε β) :
    Nat → κ → Parser σ τ ε (κ × β)
  | 0, _, x => return .errorAt x .manyTill
  | turns + 1, held, x => do
    let ended ← till x
    if ended.isSuccess then
      let (u, rest) ← Run.demand ended.getSuccess
      return .success (held, u) rest
    else if !ended.isError then return .signal (← Run.demand ended.getSignal)
    else
      let res ← p x
      if res.isError then
        let g ← Run.demand res.getSignal
        return .signal (.error (Payload.append x .manyTill (← Run.demand g.getError)))
      else if !res.isSuccess then return .signal (← Run.demand res.getSignal)
      else
        let (v, rest) ← Run.demand res.getSuccess
        if rest.length == x.length then return .errorAt x .manyTill
        else manyTillLoop into p till turns (into.insert held v) rest

theorem manyTillLoop_eq (into : Container α κ) (p : Parser σ τ ε α) (till : Parser σ τ ε β)
    (turns : Nat) (held : κ) (x : Window τ) :
    manyTillLoop into p till turns held x = Parser.manyTillLoop into p till turns held x := by
  induction turns generalizing held x with
  | zero => rfl
  | succ turns ih =>
    unfold manyTillLoop Parser.manyTillLoop
    refine bind_congr fun o => ?_
    rcases o with _ | (_ | _ | _)
    · rfl
    · change p x >>= _ = p x >>= _
      refine bind_congr fun o => ?_
      rcases o with ⟨v, rest⟩ | (_ | _ | _)
      · change (if (rest.length == x.length) = true then _ else
          manyTillLoop into p till turns (into.insert held v) rest) = _
        rw [ih]
      all_goals rfl
    all_goals rfl

def manyTill (into : Container α κ) (p : Parser σ τ ε α) (till : Parser σ τ ε β) :
    Parser σ τ ε (κ × β) := fun x =>
  manyTillLoop into p till (x.length + 1) into.empty x

theorem manyTill_eq (into : Container α κ) (p : Parser σ τ ε α) (till : Parser σ τ ε β) :
    manyTill into p till = Parser.manyTill into p till :=
  funext fun x => manyTillLoop_eq into p till (x.length + 1) into.empty x

def separatedLoop (into : Container α κ) (sep : Parser σ τ ε β) (p : Parser σ τ ε α) :
    Nat → κ → Parser σ τ ε κ
  | 0, _, x => return .errorAt x .separatedList
  | turns + 1, held, x => do
    let between ← sep x
    if between.isError then return .success held x
    else if !between.isSuccess then return .signal (← Run.demand between.getSignal)
    else
      let (_, next) ← Run.demand between.getSuccess
      if next.length == x.length then return .errorAt x .separatedList
      else
        let res ← p next
        if res.isError then return .success held x
        else if !res.isSuccess then return .signal (← Run.demand res.getSignal)
        else
          let (v, rest) ← Run.demand res.getSuccess
          separatedLoop into sep p turns (into.insert held v) rest

theorem separatedLoop_eq (into : Container α κ) (sep : Parser σ τ ε β) (p : Parser σ τ ε α)
    (turns : Nat) (held : κ) (x : Window τ) :
    separatedLoop into sep p turns held x = Parser.separatedLoop into sep p turns held x := by
  induction turns generalizing held x with
  | zero => rfl
  | succ turns ih =>
    unfold separatedLoop Parser.separatedLoop
    refine bind_congr fun o => ?_
    rcases o with ⟨w, next⟩ | (_ | _ | _)
    · change (if (next.length == x.length) = true then _ else p next >>= _) = _
      congr 2
      funext o
      rcases o with ⟨v, rest⟩ | (_ | _ | _)
      · exact ih _ rest
      all_goals rfl
    all_goals rfl

/-- Both kinds of lists. One that may be empty recovers from an error of the first element. -/
def separatedList (requireFirst : Bool) (into : Container α κ) (sep : Parser σ τ ε β)
    (p : Parser σ τ ε α) : Parser σ τ ε κ := fun x => do
  let res ← p x
  if res.isError && !requireFirst then return .success into.empty x
  else if !res.isSuccess then return .signal (← Run.demand res.getSignal)
  else
    let (v, rest) ← Run.demand res.getSuccess
    separatedLoop into sep p (rest.length + 1) (into.insert into.empty v) rest

theorem separatedList_eq_list0 (into : Container α κ) (sep : Parser σ τ ε β) (p : Parser σ τ ε α) :
    separatedList false into sep p = Parser.separatedList0 into sep p := by
  funext x
  unfold separatedList Parser.separatedList0
  refine bind_congr fun o => ?_
  rcases o with ⟨v, rest⟩ | (_ | _ | _)
  · exact separatedLoop_eq into sep p _ _ rest
  all_goals rfl

theorem separatedList_eq_list1 (into : Container α κ) (sep : Parser σ τ ε β) (p : Parser σ τ ε α) :
    separatedList true into sep p = Parser.separatedList1 into sep p := by
  funext x
  unfold separatedList Parser.separatedList1
  refine bind_congr fun o => ?_
  rcases o with ⟨v, rest⟩ | (_ | _ | _)
  · exact separatedLoop_eq into sep p _ _ rest
  all_goals rfl

end

/-! Length-prefixed data. -/

def lengthData (len : Parser σ τ ε Nat) : Parser σ τ ε (Window τ) := fun x => do
  let res ← len x
  if !res.isSuccess then return .signal (← Run.demand res.getSignal)
  else
    let (n, left) ← Run.demand res.getSuccess
    if left.length < n then return .needs (n - left.length)
    else
      let (data, rest) ← Run.demand (left.split n)
      return .success data rest

theorem lengthData_eq (len : Parser σ τ ε Nat) : lengthData len = Parser.lengthData len := by
  funext x
  unfold lengthData Parser.lengthData
  refine bind_congr fun o => ?_
  cases o <;> rfl

section

variable [Payload τ ε]

def lengthValue (len : Parser σ τ ε Nat) (body : Parser σ τ ε α) : Parser σ τ ε α := fun x => do
  let announced ← lengthData len x
  if !announced.isSuccess then return .signal (← Run.demand announced.getSignal)
  else
    let (data, after) ← Run.demand announced.getSuccess
    let res ← body data
    if res.isIncomplete then return .errorAt data .complete
    else if !res.isSuccess then return .signal (← Run.demand res.getSignal)
    else
      let (v, _) ← Run.demand res.getSuccess
      return .success v after

theorem lengthValue_eq (len : Parser σ τ ε Nat) (body : Parser σ τ ε α) :
    lengthValue len body = Parser.lengthValue len body := by
  funext x
  unfold lengthValue Parser.lengthValue
  rw [lengthData_eq]
  refine bind_congr fun o => ?_
  cases o with
  | signal g => rfl
  | success data after =>
    change body data >>= _ = body data >>= _
    refine bind_congr fun o => ?_
    rcases o with _ | (_ | _ | _) <;> rfl

def lengthCount (len : Parser σ τ ε Nat) (into : Container α κ) (p : Parser σ τ ε α) :
    Parser σ τ ε κ := fun x => do
  let res ← len x
  if !res.isSuccess then return .signal (← Run.demand res.getSignal)
  else
    let (n, rest) ← Run.demand res.getSuccess
    collect (.lengthCount n) into (into.withRoom n) p rest

theorem lengthCount_eq (len : Parser σ τ ε Nat) (into : Container α κ) (p : Parser σ τ ε α) :
    lengthCount len into p = Parser.lengthCount len into p := by
  funext x
  unfold lengthCount Parser.lengthCount
  refine bind_congr fun o => ?_
  cases o with
  | signal g => rfl
  | success n rest =>
    have hcollect := collect_eq (.lengthCount n) into (into.withRoom n) p
    exact congrFun hcollect rest

end

/-! Diagnostics. -/

def dereference : Option α → Except Fault α
  | some a => return a
  | none => throw .absentAlternative

def describe [Described τ ε] (origin : Window τ) (g : Signal ε) : Except Fault String := do
  if g.isIncomplete then
    let n ← g.getIncomplete
    return "incomplete: " ++ n.describe
  else
    let e ← dereference g.payload?
    return (if g.isError then "error: " else "failure: ") ++ Described.describe origin e

theorem describe_eq [Described τ ε] (origin : Window τ) (g : Signal ε) :
    describe origin g = .ok (g.describe origin) := by cases g <;> rfl

variable [Element τ]

def preview (w : Window τ) (most : Nat) : Except Fault String := do
  match (Element.excerpt : Excerpt τ) with
  | .quoted char =>
    let shown ← elements w (min most w.length) 0
    return "\"" ++ String.ofList (shown.map char) ++ "\"" ++ w.endMark most
  | .hex byte =>
    let shown ← elements w (min most w.length) 0
    return "[" ++ hexBytes (shown.map byte) ++ "]" ++ w.endMark most
  | .counted => return "<" ++ toString w.length ++ " elements>"

theorem preview_eq (w : Window τ) (most : Nat) : preview w most = .ok (w.preview most) := by
  have hshown : elements w (min most w.length) 0 = .ok (w.elements.take most) := by
    rw [elements_eq (by omega), List.drop_zero, w.length_eq, ← List.take_eq_take_min]
  unfold preview Window.preview
  cases (Element.excerpt : Excerpt τ) with
  | quoted char =>
    simp only [hshown]
    rfl
  | hex byte =>
    simp only [hshown]
    rfl
  | counted => rfl

/-- One line of the log. -/
def render [Described τ ε] : Event τ ε → Except Fault String
  | .start name x => do
    let shown ← preview x Window.defaultPreview
    return toString x.length ++ ("  start   " ++ name ++ "; current " ++ shown) ++ "\n"
  | .success name x => do
    let shown ← preview x Window.defaultPreview
    return toString x.length ++ ("  success " ++ name ++ "; next " ++ shown) ++ "\n"
  | .failure name x g => do
    let described ← describe x g
    return toString x.length ++ ("  failure " ++ name ++ "; " ++ described) ++ "\n"

theorem render_eq [Described τ ε] (e : Event τ ε) : render e = .ok e.render := by
  cases e with
  | start name x | success name x =>
    simp only [render, preview_eq]
    rfl
  | failure name x g =>
    simp only [render, describe_eq]
    rfl

end Checked
end Reprise
