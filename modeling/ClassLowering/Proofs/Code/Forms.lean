import Mathlib.Tactic.IntervalCases
import ClassLowering.Proofs.Encoding.Targets
import ClassLowering.Text.Numeral

namespace ClassLowering

def firstWord (text : List Char) : String := .ofList (text.takeWhile (· ≠ ' '))

def afterWord (text : List Char) : List Char := (text.dropWhile (· ≠ ' ')).drop 1

theorem toList_words (word rest : String) :
    (word ++ " " ++ rest).toList = word.toList ++ ' ' :: rest.toList := by
  have hblank : " ".toList = [' '] := by decide
  rw [String.toList_append, String.toList_append, hblank, List.append_assoc]
  rfl

section Words

variable {word : String} (h : ' ' ∉ word.toList)
include h

theorem ne_blank : ∀ c ∈ word.toList, decide (c ≠ ' ') = true := fun _ hc =>
  decide_eq_true fun he => h (he ▸ hc)

theorem firstWord_append (rest : List Char) : firstWord (word.toList ++ ' ' :: rest) = word := by
  rw [firstWord, List.takeWhile_append_of_pos (ne_blank h), List.takeWhile_cons_of_neg (by decide),
    List.append_nil, String.ofList_toList]

theorem afterWord_append (rest : List Char) : afterWord (word.toList ++ ' ' :: rest) = rest := by
  rw [afterWord, List.dropWhile_append_of_pos (ne_blank h), List.dropWhile_cons_of_neg (by decide)]
  rfl

end Words

theorem isDigit_of_mem_repr {n : Nat} {c : Char} (h : c ∈ n.repr.toList) : c.isDigit = true := by
  rw [Nat.toList_repr] at h
  exact Nat.isDigit_of_mem_toDigits (by decide) (by decide) h

theorem digits?_repr (n : Nat) : Text.digits? n.repr.toList = some n := by
  have hdigits : ∀ c ∈ n.repr.toList, c.isDigit = true := fun _ => isDigit_of_mem_repr
  have hvalue := @Nat.ofDigitChars_toDigits 10 n (by decide) (by decide)
  have hne := @Nat.toDigits_ne_nil n 10
  rw [Nat.toList_repr] at hdigits ⊢
  rw [Nat.ofDigitChars_eq_foldl] at hvalue
  cases hchars : Nat.toDigits 10 n with
  | nil => exact absurd hchars hne
  | cons c rest =>
    rw [hchars] at hdigits hvalue
    unfold Text.digits?
    dsimp only
    rw [if_pos (List.all_eq_true.2 hdigits), hvalue]

theorem integer?_repr (v : Int) : Text.integer? v.repr.toList = some v := by
  cases v with
  | ofNat n =>
    have hn := digits?_repr n
    have hdigits : ∀ c ∈ n.repr.toList, c.isDigit = true := fun _ => isDigit_of_mem_repr
    change Text.integer? n.repr.toList = _
    generalize n.repr.toList = chars at hn hdigits
    unfold Text.integer?
    split
    · cases hdigits '-' List.mem_cons_self
    · cases hdigits '+' List.mem_cons_self
    · rw [hn]
      rfl
  | negSucc n =>
    change Text.integer? ("-" ++ n.succ.repr).toList = _
    have hsign : "-".toList = ['-'] := by decide
    rw [String.toList_append, hsign]
    change (Text.digits? n.succ.repr.toList).map (fun k => -(k : Int)) = _
    rw [digits?_repr]
    rfl

def Plain (name : String) : Prop := ∀ c ∈ [' ', '\n', '/', '(', ';'], c ∉ name.toList

instance (name : String) : Decidable (Plain name) :=
  List.decidableBAll (fun c => c ∉ name.toList) [' ', '\n', '/', '(', ';']

def PlainPath (path : String) : Prop := ∀ c ∈ [' ', '\n', '(', ';'], c ∉ path.toList

instance (path : String) : Decidable (PlainPath path) :=
  List.decidableBAll (fun c => c ∉ path.toList) [' ', '\n', '(', ';']

def MachineType.IsPlain (t : MachineType) : Prop := ∀ name ∈ t.names, PlainPath name

theorem MachineType.unbroken_text {t : MachineType} (ht : t.IsPlain) : '\n' ∉ t.text.toList := by
  induction t with
  | object name =>
    have hname := ht name List.mem_cons_self '\n' (by decide)
    simpa [text] using hname
  | array element ih => simpa [text] using ih ht
  | _ => decide

theorem MachineSignature.unbroken_text {σ : MachineSignature}
    (hσ : ∀ t ∈ σ.result :: σ.parameters, t.IsPlain) : '\n' ∉ σ.text.toList := by
  obtain ⟨hresult, hparameters⟩ := List.forall_mem_cons.1 hσ
  have hback := MachineType.unbroken_text hresult
  have hjoin : ∀ t ∈ σ.parameters, '\n' ∉ t.text.toList :=
    fun t ht => MachineType.unbroken_text (hparameters t ht)
  simpa [text, String.toList_join, hback] using hjoin

namespace Line

def forms : List (String × Line) :=
  [("iconst_m1", .op (.const (-1))), ("iconst_0", .op (.const 0)), ("iconst_1", .op (.const 1)),
    ("iconst_2", .op (.const 2)), ("iconst_3", .op (.const 3)), ("iconst_4", .op (.const 4)),
    ("iconst_5", .op (.const 5)), ("iload_0", .op (.load .int 0)), ("iload_1", .op (.load .int 1)),
    ("iload_2", .op (.load .int 2)), ("iload_3", .op (.load .int 3)),
    ("aload_0", .op (.load .reference 0)), ("aload_1", .op (.load .reference 1)),
    ("aload_2", .op (.load .reference 2)), ("aload_3", .op (.load .reference 3)),
    ("istore_0", .op (.store .int 0)), ("istore_1", .op (.store .int 1)),
    ("istore_2", .op (.store .int 2)), ("istore_3", .op (.store .int 3)),
    ("astore_0", .op (.store .reference 0)), ("astore_1", .op (.store .reference 1)),
    ("astore_2", .op (.store .reference 2)), ("astore_3", .op (.store .reference 3)),
    ("iadd", .op (.arithmetic .add)), ("isub", .op (.arithmetic .sub)),
    ("imul", .op (.arithmetic .mul)), ("idiv", .op (.arithmetic .div)),
    ("ior", .op (.arithmetic .or)), ("iaload", .op (.loadElement .int)),
    ("baload", .op (.loadElement .bool)), ("aaload", .op (.loadElement .reference)),
    ("iastore", .op (.storeElement .int)), ("bastore", .op (.storeElement .bool)),
    ("aastore", .op (.storeElement .reference)), ("newarray int", .op .newIntArray),
    ("newarray boolean", .op .newBoolArray), ("arraylength", .op .arrayLength), ("dup", .op .dup),
    ("pop", .op .pop), ("return", .exit .void), ("ireturn", .exit (.value .int)),
    ("areturn", .exit (.value .reference))]

def constant? (low high : Int) (operand : List Char) : Option Line :=
  ((Text.integer? operand).filter fun v => low ≤ v && v ≤ high).map fun v => .op (.const (.ofInt v))

def withRegister? (make : Nat → Op) (operand : List Char) : Option Line :=
  (Text.digits? operand).map fun register => .op (make register)

def increment? (operand : List Char) : Option Line := do
  let register ← Text.digits? (firstWord operand).toList
  let delta ← Text.integer? (afterWord operand)
  if Op.fitsIncrement delta then some (.op (.increment register delta)) else none

def withName? (make : String → Line) (operand : List Char) : Option Line :=
  some (make (.ofList operand))

def member? (path : List Char) : Option (String × String) :=
  match path.reverse.dropWhile (· ≠ '/') with
  | _ :: owner =>
    some (.ofList owner.reverse, .ofList (path.reverse.takeWhile (· ≠ '/')).reverse)
  | [] => none

def field? (make : String → String → String → Op) (operand : List Char) : Option Line :=
  (member? (firstWord operand).toList).map fun (owner, name) =>
    .op (make owner name (.ofList (afterWord operand)))

def countSlots (inName : Bool) : List Char → Option (Nat × List Char)
  | [] => none
  | c :: rest =>
    if inName then
      if c = ';' then (countSlots false rest).map fun (n, back) => (n + 1, back)
      else countSlots true rest
    else if c = ')' then some (0, rest)
    else if c = '[' then countSlots false rest
    else if c = 'L' then countSlots true rest
    else (countSlots false rest).map fun (n, back) => (n + 1, back)

def arity? : List Char → Option (Nat × Nat)
  | '(' :: text =>
    (countSlots false text).map fun (count, result) => (count, if result = ['V'] then 0 else 1)
  | _ => none

def call? (how : Invocation) (operand : List Char) : Option Line := do
  let descriptor := operand.dropWhile (· ≠ '(')
  let (owner, name) ← member? (operand.takeWhile (· ≠ '('))
  let (count, pushes) ← arity? descriptor
  let receivers := if how = .static then 0 else 1
  return .op (.invoke how owner name (.ofList descriptor) (count + receivers) pushes)

def readers : List (String × (List Char → Option Line)) :=
  [("bipush", constant? (-128) 127), ("sipush", constant? (-32768) 32767),
    ("ldc", constant? (-2147483648) 2147483647), ("iload", withRegister? (.load .int)),
    ("aload", withRegister? (.load .reference)), ("istore", withRegister? (.store .int)),
    ("astore", withRegister? (.store .reference)), ("iinc", increment?),
    ("new", withName? fun name => .op (.newObject name)),
    ("anewarray", withName? fun name => .op (.newReferenceArray name)),
    ("getfield", field? .getField), ("putfield", field? .putField),
    ("invokespecial", call? .special), ("invokestatic", call? .static),
    ("invokevirtual", call? .virtual),
    ("goto", withName? (.jump .always)), ("ifeq", withName? (.jump .eqZero)),
    ("ifne", withName? (.jump .neZero)), ("iflt", withName? (.jump .ltZero)),
    ("ifge", withName? (.jump .geZero)), ("ifgt", withName? (.jump .gtZero)),
    ("ifle", withName? (.jump .leZero)), ("if_icmplt", withName? (.jump .lt)),
    ("if_icmpge", withName? (.jump .ge))]

def readForm? (text : String) : Option Line :=
  match readers.lookup (firstWord text.toList) with
  | some read => read (afterWord text.toList)
  | none => forms.lookup text

def read? : List Char → Option Line
  | ' ' :: ' ' :: ' ' :: ' ' :: form => readForm? (.ofList form)
  | ' ' :: ' ' :: name =>
    if name.getLast? = some ':' then some (.label (.ofList name.dropLast)) else none
  | _ => none

theorem member?_append {owner name : String} (hname : '/' ∉ name.toList) :
    member? (owner.toList ++ '/' :: name.toList) = some (owner, name) := by
  have hreverse : (owner.toList ++ '/' :: name.toList).reverse =
      name.toList.reverse ++ '/' :: owner.toList.reverse := by
    simp
  have hfree : ∀ c ∈ name.toList.reverse, decide (c ≠ '/') = true := fun c hc =>
    decide_eq_true fun he => hname (he ▸ List.mem_reverse.1 hc)
  rw [member?, hreverse, List.dropWhile_append_of_pos hfree, List.takeWhile_append_of_pos hfree,
    List.dropWhile_cons_of_neg (by decide), List.takeWhile_cons_of_neg (by decide)]
  simp

theorem countSlots_name {name : List Char} (h : ';' ∉ name) (rest : List Char) :
    countSlots true (name ++ ';' :: rest) =
      (countSlots false rest).map fun (n, back) => (n + 1, back) := by
  induction name with
  | nil => simp [countSlots]
  | cons c name ih =>
    obtain ⟨hc, hname⟩ := not_or.1 (mt List.mem_cons.2 h)
    rw [List.cons_append, countSlots, if_pos rfl, if_neg (Ne.symm hc), ih hname]

theorem countSlots_text {t : MachineType} (ht : t.IsPlain)
    (rest : List Char) :
    countSlots false (t.text.toList ++ rest) =
      (countSlots false rest).map fun (n, back) => (n + 1, back) := by
  induction t with
  | object name =>
    have htext : (MachineType.object name).text.toList ++ rest =
        'L' :: (name.toList ++ ';' :: rest) := by
      simp [MachineType.text]
    rw [htext, countSlots]
    exact countSlots_name (ht name List.mem_cons_self ';' (by decide)) rest
  | array element ih =>
    have htext : element.array.text.toList ++ rest = '[' :: (element.text.toList ++ rest) := by
      simp [MachineType.text]
    rw [htext, countSlots]
    exact ih ht
  | _ => rfl

theorem countSlots_join {ts : List MachineType}
    (hts : ∀ t ∈ ts, t.IsPlain) (rest : List Char) :
    countSlots false ((String.join (ts.map MachineType.text)).toList ++ ')' :: rest) =
      some (ts.length, rest) := by
  induction ts with
  | nil => rfl
  | cons t ts ih =>
    obtain ⟨ht, hrest⟩ := List.forall_mem_cons.1 hts
    have hjoin : (String.join ((t :: ts).map MachineType.text)).toList =
        t.text.toList ++ (String.join (ts.map MachineType.text)).toList := by
      simp [String.toList_join]
    rw [hjoin, List.append_assoc, countSlots_text ht, ih hrest]
    rfl

theorem arity?_text {σ : MachineSignature}
    (hσ : ∀ t ∈ σ.parameters, t.IsPlain) :
    arity? σ.text.toList = some (σ.parameters.length, if σ.result = .void then 0 else 1) := by
  have htext : σ.text.toList = '(' ::
      ((String.join (σ.parameters.map MachineType.text)).toList ++ ')' :: σ.result.text.toList) := by
    simp [MachineSignature.text]
  have hvoid : σ.result.text.toList = ['V'] ↔ σ.result = .void := by
    cases σ.result <;> simp [MachineType.text]
  rw [htext, arity?, countSlots_join hσ]
  simp only [Option.map_some, hvoid]

structure Form (text : String) (l : Line) : Prop where
  unbroken : '\n' ∉ text.toList
  reads : readForm? text = some l

theorem readForm?_words {word : String} {read : List Char → Option Line} (hword : ' ' ∉ word.toList)
    (hread : readers.lookup word = some read) (operand : String) :
    readForm? (word ++ " " ++ operand) = read operand.toList := by
  rw [readForm?, toList_words, firstWord_append hword, hread, afterWord_append hword]

theorem Form.words {word operand : String} {read : List Char → Option Line} {l : Line}
    (hword : ' ' ∉ word.toList ∧ '\n' ∉ word.toList) (hread : readers.lookup word = some read)
    (hoperand : '\n' ∉ operand.toList) (hl : read operand.toList = some l) :
    Form (word ++ " " ++ operand) l := by
  refine ⟨?_, ?_⟩
  · rw [toList_words, List.mem_append, List.mem_cons]
    rintro (h | h | h)
    · exact hword.2 h
    · exact absurd h (by decide)
    · exact hoperand h
  · rw [readForm?_words hword.1 hread, hl]

theorem not_mem_repr (n : Nat) {c : Char} (hc : c.isDigit = false) : c ∉ n.repr.toList := by
  intro h
  rw [isDigit_of_mem_repr h] at hc
  cases hc

theorem unbroken_repr (v : Int) : '\n' ∉ v.repr.toList := by
  cases v with
  | ofNat n => exact not_mem_repr n rfl
  | negSucc n =>
    change '\n' ∉ ("-" ++ n.succ.repr).toList
    rw [String.toList_append, List.mem_append]
    rintro (h | h)
    · exact absurd h (by decide)
    · exact not_mem_repr n.succ rfl h

theorem constant?_repr {low high v : Int} (hlow : low ≤ v) (hhigh : v ≤ high) :
    constant? low high v.repr.toList = some (.op (.const (.ofInt v))) := by
  rw [constant?, integer?_repr, Option.filter_some, if_pos (by simp [hlow, hhigh])]
  rfl

theorem form_const (value : Int32) : Form (Op.constText value.toInt) (.op (.const value)) := by
  have hmin : -2147483648 ≤ value.toInt := value.le_toInt
  have hmax : value.toInt ≤ 2147483647 := Int.le_of_lt_add_one value.toInt_lt
  have hvalue : Int32.ofInt value.toInt = value := Int32.ofInt_toInt value
  generalize value.toInt = v at hmin hmax hvalue
  subst hvalue
  have hlong (word : String) (low high : Int) (hword : ' ' ∉ word.toList ∧ '\n' ∉ word.toList)
      (hread : readers.lookup word = some (constant? low high)) (hlow : low ≤ v)
      (hhigh : v ≤ high) : Form (word ++ " " ++ v.repr) (.op (.const (.ofInt v))) :=
    .words hword hread (unbroken_repr v) (constant?_repr hlow hhigh)
  unfold Op.constText
  split
  · next h =>
    subst h
    exact ⟨by decide +kernel, by decide +kernel⟩
  · split
    · next h =>
      obtain ⟨h0, h5⟩ := h
      interval_cases v <;> exact ⟨by decide +kernel, by decide +kernel⟩
    · split
      · next h => exact hlong "bipush" _ _ (by decide) rfl h.1 h.2
      · split
        · next h => exact hlong "sipush" _ _ (by decide) rfl h.1 h.2
        · exact hlong "ldc" _ _ (by decide) rfl hmin hmax

theorem form_register {mnemonic : String} {make : Nat → Op}
    (hword : ' ' ∉ mnemonic.toList ∧ '\n' ∉ mnemonic.toList)
    (hread : readers.lookup mnemonic = some (withRegister? make))
    (hshort : ∀ r ≤ 3, '\n' ∉ (Op.registerText mnemonic r).toList ∧
      readForm? (Op.registerText mnemonic r) = some (.op (make r))) (r : Nat) :
    Form (Op.registerText mnemonic r) (.op (make r)) := by
  by_cases hr : r ≤ 3
  · exact ⟨(hshort r hr).1, (hshort r hr).2⟩
  · have hform : Op.registerText mnemonic r = mnemonic ++ " " ++ r.repr := by
      rw [Op.registerText, if_neg hr]
      rfl
    rw [hform]
    refine .words hword hread (not_mem_repr r rfl) ?_
    rw [withRegister?, digits?_repr]
    rfl

theorem form_increment (register : Nat) {delta : Int} (h : Op.fitsIncrement delta = true) :
    Form (Op.increment register delta).text (.op (.increment register delta)) := by
  have hform : (Op.increment register delta).text =
      "iinc" ++ " " ++ (register.repr ++ " " ++ delta.repr) := by
    rw [← String.append_assoc, ← String.append_assoc]
    rfl
  have hblank : ' ' ∉ register.repr.toList := not_mem_repr register rfl
  rw [hform]
  refine .words (by decide) rfl ?_ ?_
  · rw [toList_words, List.mem_append, List.mem_cons]
    rintro (hc | hc | hc)
    · exact not_mem_repr register rfl hc
    · exact absurd hc (by decide)
    · exact unbroken_repr delta hc
  · rw [increment?, toList_words, firstWord_append hblank, afterWord_append hblank, digits?_repr,
      integer?_repr]
    exact if_pos h

theorem form_name {word : String} {make : String → Line}
    (hword : ' ' ∉ word.toList ∧ '\n' ∉ word.toList)
    (hread : readers.lookup word = some (withName? make)) {name : String}
    (hname : '\n' ∉ name.toList) : Form (word ++ " " ++ name) (make name) := by
  refine .words hword hread hname ?_
  rw [withName?, String.ofList_toList]

section Members

variable {owner name : String} (howner : PlainPath owner) (hname : Plain name)
include howner hname

theorem not_mem_member {c : Char} (hc : c ∈ [' ', '\n', '(', ';']) :
    c ∉ (owner ++ "/" ++ name).toList := by
  have hslash : "/".toList = ['/'] := by decide
  have hmem : c ∈ [' ', '\n', '/', '(', ';'] := by
    simp only [List.mem_cons, List.not_mem_nil, or_false] at hc ⊢
    tauto
  rw [String.toList_append, String.toList_append, hslash, List.mem_append, List.mem_append,
    List.mem_singleton]
  rintro ((h | rfl) | h)
  · exact howner c hc h
  · exact absurd hc (by decide)
  · exact hname c hmem h

omit howner in
theorem member?_path : member? (owner ++ "/" ++ name).toList = some (owner, name) := by
  have hform : (owner ++ "/" ++ name).toList = owner.toList ++ '/' :: name.toList := by
    simp
  rw [hform, member?_append (hname '/' (by decide))]

theorem form_field {word descriptor : String} {make : String → String → String → Op}
    (hword : ' ' ∉ word.toList ∧ '\n' ∉ word.toList)
    (hread : readers.lookup word = some (field? make)) (hdescriptor : '\n' ∉ descriptor.toList) :
    Form (word ++ " " ++ (owner ++ "/" ++ name ++ " " ++ descriptor))
      (.op (make owner name descriptor)) := by
  have hblank := not_mem_member howner hname (c := ' ') (by decide)
  refine .words hword hread ?_ ?_
  · rw [toList_words, List.mem_append, List.mem_cons]
    rintro (h | h | h)
    · exact not_mem_member howner hname (by decide) h
    · exact absurd h (by decide)
    · exact hdescriptor h
  · rw [field?, toList_words, firstWord_append hblank, afterWord_append hblank,
      member?_path hname, String.ofList_toList]
    rfl

theorem form_invoke {how : Invocation} {σ : MachineSignature}
    (hread : readers.lookup how.mnemonic = some (call? how)) (hσ : ∀ t ∈ σ.parameters, t.IsPlain)
    (hunbroken : '\n' ∉ σ.text.toList) :
    Form (how.mnemonic ++ " " ++ (owner ++ "/" ++ name ++ σ.text))
      (.op (.invoke how owner name σ.text (σ.parameters.length + if how = .static then 0 else 1)
        (if σ.result = .void then 0 else 1))) := by
  have hfree : ∀ c ∈ (owner ++ "/" ++ name).toList, decide (c ≠ '(') = true := fun c hc =>
    decide_eq_true fun he => not_mem_member howner hname (by decide) (he ▸ hc)
  have hopen : ∃ rest, σ.text.toList = '(' :: rest := by
    simp [MachineSignature.text]
  obtain ⟨rest, hrest⟩ := hopen
  refine .words (by cases how <;> decide) hread ?_ ?_
  · rw [String.toList_append, List.mem_append, not_or]
    exact ⟨not_mem_member howner hname (by decide), hunbroken⟩
  · have hpath : (owner ++ "/" ++ name ++ σ.text).toList.takeWhile (· ≠ '(') =
        (owner ++ "/" ++ name).toList := by
      rw [String.toList_append, List.takeWhile_append_of_pos hfree, hrest,
        List.takeWhile_cons_of_neg (by decide), List.append_nil]
    have hsignature : (owner ++ "/" ++ name ++ σ.text).toList.dropWhile (· ≠ '(') =
        σ.text.toList := by
      rw [String.toList_append, List.dropWhile_append_of_pos hfree, hrest,
        List.dropWhile_cons_of_neg (by decide)]
    simp only [call?, hpath, hsignature, member?_path hname, arity?_text hσ,
      Option.bind_eq_bind, Option.bind_some, String.ofList_toList, Option.pure_def]

end Members

def Legible (l : Line) : Prop :=
  ∃ row : String, l.text = row ++ "\n" ∧ '\n' ∉ row.toList ∧ read? row.toList = some l

theorem Form.legible {text : String} {l : Line} (h : Form text l)
    (hl : l.text = "    " ++ text ++ "\n") : l.Legible := by
  have hmargin : "    ".toList = [' ', ' ', ' ', ' '] := by decide
  refine ⟨"    " ++ text, hl, ?_, ?_⟩
  · rw [String.toList_append, List.mem_append, not_or]
    exact ⟨by decide, h.unbroken⟩
  · rw [String.toList_append, hmargin]
    change readForm? (.ofList text.toList) = _
    rw [String.ofList_toList, h.reads]

def isBare : Line → Bool
  | .op (.const _) | .op (.load _ _) | .op (.store _ _) | .op (.arithmetic _)
  | .op (.loadElement _) | .op (.storeElement _) | .op .newIntArray | .op .newBoolArray
  | .op .arrayLength | .op .dup | .op .pop | .exit .void | .exit (.value _) => true
  | _ => false

theorem legible_bare {l : Line} (h : l.isBare = true) : l.Legible := by
  have hclosed {text : String} {l : Line} (hl : l.text = "    " ++ text ++ "\n")
      (hunbroken : '\n' ∉ text.toList) (hreads : readForm? text = some l) : l.Legible :=
    Form.legible ⟨hunbroken, hreads⟩ hl
  cases l with
  | op o =>
    cases o with
    | const value => exact (form_const value).legible rfl
    | load kind register =>
      cases kind <;>
        exact (form_register (by decide) rfl (by decide +kernel) register).legible rfl
    | store kind register =>
      cases kind <;>
        exact (form_register (by decide) rfl (by decide +kernel) register).legible rfl
    | arithmetic op => cases op <;> exact hclosed rfl (by decide +kernel) (by decide +kernel)
    | loadElement kind | storeElement kind =>
      cases kind <;> exact hclosed rfl (by decide +kernel) (by decide +kernel)
    | newIntArray | newBoolArray | arrayLength | dup | pop =>
      exact hclosed rfl (by decide +kernel) (by decide +kernel)
    | increment | newObject | newReferenceArray | getField | putField | invoke | other => cases h
  | exit e =>
    cases e with
    | void => exact hclosed rfl (by decide +kernel) (by decide +kernel)
    | value kind => cases kind <;> exact hclosed rfl (by decide +kernel) (by decide +kernel)
    | other => cases h
  | jump | label => cases h

theorem legible_increment {register : Nat} {delta : Int} (h : Op.fitsIncrement delta = true) :
    (op (.increment register delta)).Legible := (form_increment register h).legible rfl

section Named

variable {name : String}

theorem legible_newObject (h : PlainPath name) : (op (.newObject name)).Legible :=
  (@form_name "new" (fun name => .op (.newObject name)) (by decide) rfl name
    (h '\n' (by decide))).legible rfl

theorem legible_newReferenceArray (h : PlainPath name) :
    (op (.newReferenceArray name)).Legible :=
  (@form_name "anewarray" (fun name => .op (.newReferenceArray name)) (by decide) rfl name
    (h '\n' (by decide))).legible rfl

theorem legible_jump {j : Jump} (hj : ∀ mnemonic pops, j ≠ .other mnemonic pops)
    (h : Plain name) : (jump j name).Legible := by
  have hform : Form (j.mnemonic ++ " " ++ name) (jump j name) := by
    cases j with
    | other mnemonic pops => exact absurd rfl (hj mnemonic pops)
    | _ => exact form_name (by decide) rfl (h '\n' (by decide))
  exact hform.legible rfl

theorem legible_label (h : Plain name) : (label name).Legible := by
  have hrow : ("  " ++ name ++ ":").toList = ' ' :: ' ' :: (name.toList ++ [':']) := by
    simp
  refine ⟨"  " ++ name ++ ":", ?_, ?_, ?_⟩
  · change "  " ++ name ++ ":\n" = "  " ++ name ++ ":" ++ "\n"
    rw [@String.append_assoc ("  " ++ name)]
    rfl
  · rw [hrow]
    simpa using h '\n' (by decide)
  · rw [hrow]
    -- A name without blanks cannot make the row look like that of an instruction.
    have hread : read? (' ' :: ' ' :: (name.toList ++ [':'])) =
        if (name.toList ++ [':']).getLast? = some ':' then
          some (label (.ofList (name.toList ++ [':']).dropLast)) else none := by
      cases hname : name.toList with
      | nil => rfl
      | cons c rest =>
        rw [List.cons_append, read?]
        intro form hform
        obtain ⟨rfl, -⟩ := List.cons.inj hform
        exact h ' ' (by decide) (hname ▸ List.mem_cons_self)
    rw [hread, List.getLast?_concat, if_pos rfl, List.dropLast_concat, String.ofList_toList]

end Named

section Members

variable {owner name : String} (howner : PlainPath owner) (hname : Plain name)
include howner hname

theorem legible_getField {descriptor : String} (h : '\n' ∉ descriptor.toList) :
    (op (.getField owner name descriptor)).Legible := by
  refine (@form_field _ _ howner hname "getfield" descriptor .getField (by decide) rfl h).legible ?_
  simp only [← String.append_assoc]
  rfl

theorem legible_putField {descriptor : String} (h : '\n' ∉ descriptor.toList) :
    (op (.putField owner name descriptor)).Legible := by
  refine (@form_field _ _ howner hname "putfield" descriptor .putField (by decide) rfl h).legible ?_
  simp only [← String.append_assoc]
  rfl

theorem legible_invoke (how : Invocation) {σ : MachineSignature}
    (hσ : ∀ t ∈ σ.result :: σ.parameters, t.IsPlain) :
    (op (.invoke how owner name σ.text (σ.parameters.length + if how = .static then 0 else 1)
      (if σ.result = .void then 0 else 1))).Legible := by
  have hread : readers.lookup how.mnemonic = some (call? how) := by cases how <;> rfl
  refine (form_invoke howner hname hread (fun t ht => hσ t (List.mem_cons_of_mem _ ht))
    (σ.unbroken_text hσ)).legible ?_
  simp only [← String.append_assoc]
  rfl

end Members

end Line

end ClassLowering
