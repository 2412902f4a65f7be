import WordLang.Proofs.UnitText

/-!
# Different code has different texts

An instruction is written as words: an opcode and its operands, with commas between these. The opcode says what
kinds of operands there are, and an operand of a known kind can be read back from its text; so can the words, as
none has a blank in it, and the lines of a unit. The text of a unit therefore fixes its lines.
-/

namespace WordLang

/-! ## Opcodes and operands -/

/-- What an instruction does, without its operands. -/
inductive Opcode where
  | li | mov | addi
  | binary (op : Operation)
  | not | load | store | push | pop | jmp | jz | call | ret
deriving DecidableEq

/-- What an instruction does it to. -/
inductive Operand where
  | register (r : Register)
  | number (n : Int)
  | address (offset : Int) (base : Register)
  | target (name : String)
  | callee (c : Callee)

namespace Operand

inductive Kind where
  | register | number | address | target | callee

def kind : Operand → Kind
  | register _ => .register
  | number _ => .number
  | address _ _ => .address
  | target _ => .target
  | callee _ => .callee

end Operand

namespace Opcode

def kinds : Opcode → List Operand.Kind
  | li => [.register, .number]
  | mov | not => [.register, .register]
  | addi => [.register, .register, .number]
  | binary _ => [.register, .register, .register]
  | load | store => [.register, .address]
  | push | pop => [.register]
  | jmp => [.target]
  | jz => [.register, .target]
  | call => [.callee]
  | ret => []

def text : Opcode → String
  | li => "li"
  | mov => "mov"
  | addi => "addi"
  | binary op => op.text
  | not => "not"
  | load => "load"
  | store => "store"
  | push => "push"
  | pop => "pop"
  | jmp => "jmp"
  | jz => "jz"
  | call => "call"
  | ret => "ret"

def all : List Opcode :=
  [li, mov, addi, binary .add, binary .sub, binary .mul, binary .div, binary .mod, binary .and, binary .or, binary .eq,
    binary .ne, binary .lt, binary .le, binary .gt, binary .ge, not, load, store, push, pop, jmp, jz, call, ret]

private theorem mem_all (code : Opcode) : code ∈ all := by
  cases code with
  | binary op => cases op <;> decide
  | _ => decide

private theorem blank_not_mem_text (code : Opcode) : ' ' ∉ code.text.toList := by
  have hall : ∀ code ∈ all, ' ' ∉ code.text.toList := by decide
  exact hall code (mem_all code)

private theorem text_injective {code code' : Opcode} (h : code.text = code'.text) : code = code' := by
  have hnodup : (all.map text).Nodup := by decide
  exact List.inj_on_of_nodup_map hnodup (mem_all code) (mem_all code') h

end Opcode

namespace Operand

def text : Operand → String
  | register r => r.text
  | number n => toString n
  | address offset base => toString offset ++ "(" ++ base.text ++ ")"
  | target name => name
  | callee c => c.text

def names : Operand → List String
  | target name => [name]
  | callee c => [c.name]
  | _ => []

/-- The words of operands: all but the last have a comma behind them. -/
def words : List Operand → List (List Char)
  | [] => []
  | [operand] => [operand.text.toList]
  | operand :: operands => (operand.text.toList ++ [',']) :: words operands

/-! ### Blanks -/

variable {a b : Operand} {xs ys : List Operand}

private theorem blank_not_mem_text (h : ∀ name ∈ a.names, Text.Named name) : ' ' ∉ a.text.toList := by
  have hregister (r : Register) : ' ' ∉ r.text.toList := by cases r <;> decide
  have hnumber (n : Int) : ' ' ∉ (toString n).toList := Link.not_mem_toString (by decide) (by decide) n
  have hname {name : String} (hnamed : Text.Named name) : ' ' ∉ name.toList :=
    fun hmem => absurd (hnamed ' ' hmem) (by decide)
  cases a with
  | register r => exact hregister r
  | number n => exact hnumber n
  | address offset base =>
    simp only [text, String.toList_append, List.mem_append, not_or]
    exact ⟨⟨⟨hnumber offset, by decide⟩, hregister base⟩, by decide⟩
  | target name => exact hname (h name List.mem_cons_self)
  | callee c =>
    have hcallee := hname (h c.name List.mem_cons_self)
    cases c with
    | internal name => exact hcallee
    | external name =>
      rw [text, Callee.text, String.toList_append, List.mem_append, not_or]
      exact ⟨by decide, hcallee⟩

private theorem blank_not_mem_words (h : ∀ x ∈ xs, ∀ name ∈ x.names, Text.Named name) :
    ∀ word ∈ words xs, ' ' ∉ word := by
  induction xs with
  | nil => simp [words]
  | cons x xs ih =>
    rw [List.forall_mem_cons] at h
    have hx := blank_not_mem_text h.1
    cases xs with
    | nil => simpa [words] using hx
    | cons y ys =>
      rw [words, List.forall_mem_cons]
      · exact ⟨by simpa using hx, ih h.2⟩
      · simp

/-! ### Reading operands back -/

private theorem register_text_injective {r r' : Register} (h : r.text = r'.text) : r = r' := by
  have hnodup : (Register.all.map Register.text).Nodup := by decide
  have hmem (r : Register) : r ∈ Register.all := by cases r <;> decide
  exact List.inj_on_of_nodup_map hnodup (hmem r) (hmem r') h

private theorem ne_sigil_append {name name' : String} (h : Text.Named name) : name ≠ "@" ++ name' := by
  rintro rfl
  have hsigil : '@' ∈ ("@" ++ name').toList := by simp
  exact absurd (h '@' hsigil) (by decide)

private theorem callee_text_injective {c c' : Callee} (hc : Text.Named c.name) (hc' : Text.Named c'.name)
    (h : c.text = c'.text) : c = c' := by
  cases c with
  | internal name =>
    cases c' with
    | internal name' => exact congrArg Callee.internal h
    | external name' => exact absurd h (ne_sigil_append hc)
  | external name =>
    cases c' with
    | internal name' => exact absurd h.symm (ne_sigil_append hc')
    | external name' => exact congrArg Callee.external ((String.append_right_inj "@").mp h)

private theorem number_text_injective {m n : Int} (h : toString m = toString n) : m = n := by
  have hdigits {i j : Nat} (h : Nat.toDigits 10 i = Nat.toDigits 10 j) : i = j := by
    have hvalue := congrArg (Nat.ofDigitChars 10 · 0) h
    simpa [Nat.ofDigitChars_ten_toDigits] using hvalue
  have hsign (i : Nat) : '-' ∉ Nat.toDigits 10 i := by
    intro hmem
    have hdigit := Nat.isDigit_of_mem_toDigits (b := 10) (by decide) (by decide) hmem
    cases hdigit
  have hchars := congrArg String.toList h
  cases m with
  | ofNat i =>
    cases n with
    | ofNat j =>
      simp [toString, Int.repr] at hchars
      rw [hdigits hchars]
    | negSucc j =>
      simp [toString, Int.repr] at hchars
      exact absurd (hchars ▸ List.mem_cons_self) (hsign i)
  | negSucc i =>
    cases n with
    | ofNat j =>
      simp [toString, Int.repr] at hchars
      exact absurd (hchars.symm ▸ List.mem_cons_self) (hsign j)
    | negSucc j =>
      simp [toString, Int.repr] at hchars
      rw [Nat.succ.inj (hdigits hchars)]

private theorem address_text_injective {m n : Int} {r r' : Register} (h : (address m r).text = (address n r').text) :
    m = n ∧ r = r' := by
  have hopen (n : Int) : '(' ∉ (toString n).toList := Link.not_mem_toString (by decide) (by decide) n
  have hbase (r : Register) : '(' ∉ r.text.toList ++ [')'] := by cases r <;> decide
  have hlist : (toString m).toList ++ '(' :: (r.text.toList ++ [')']) =
      (toString n).toList ++ '(' :: (r'.text.toList ++ [')']) := by
    have hchars := congrArg String.toList h
    simp only [text, String.toList_append, List.append_assoc] at hchars
    exact hchars
  obtain ⟨hoffset, -, hregister⟩ := (List.append_cons_inj_of_notMem (hopen m) (hbase r)).mp hlist
  exact ⟨number_text_injective (String.toList_inj.mp hoffset),
    register_text_injective (String.toList_inj.mp (List.append_cancel_right hregister))⟩

/-- An operand of a known kind can be read back. -/
theorem text_injective (ha : ∀ name ∈ a.names, Text.Named name) (hb : ∀ name ∈ b.names, Text.Named name)
    (hkind : a.kind = b.kind) (h : a.text = b.text) : a = b := by
  cases a with
  | register r =>
    cases b with
    | register r' => rw [register_text_injective h]
    | _ => simp [kind] at hkind
  | number m =>
    cases b with
    | number n => rw [number_text_injective h]
    | _ => simp [kind] at hkind
  | address m r =>
    cases b with
    | address n r' =>
      obtain ⟨rfl, rfl⟩ := address_text_injective h
      rfl
    | _ => simp [kind] at hkind
  | target name =>
    cases b with
    | target name' => exact congrArg target h
    | _ => simp [kind] at hkind
  | callee c =>
    cases b with
    | callee c' =>
      have hcallee := callee_text_injective (ha c.name List.mem_cons_self) (hb c'.name List.mem_cons_self) h
      exact congrArg callee hcallee
    | _ => simp [kind] at hkind

private theorem words_injective (hx : ∀ x ∈ xs, ∀ name ∈ x.names, Text.Named name)
    (hy : ∀ y ∈ ys, ∀ name ∈ y.names, Text.Named name) (hkind : xs.map kind = ys.map kind)
    (h : words xs = words ys) : xs = ys := by
  induction xs generalizing ys with
  | nil => exact (List.map_eq_nil_iff.mp hkind.symm).symm
  | cons x xs ih =>
    obtain ⟨y, ys, rfl, hfirst, hrest⟩ := List.map_eq_cons_iff.mp hkind.symm
    rw [List.forall_mem_cons] at hx hy
    cases xs with
    | nil =>
      obtain rfl := List.map_eq_nil_iff.mp hrest
      have htext := String.toList_inj.mp (List.cons.inj h).1
      rw [text_injective hx.1 hy.1 hfirst.symm htext]
    | cons x' xs =>
      obtain ⟨y', ys, rfl, -⟩ := List.map_eq_cons_iff.mp hrest
      obtain ⟨hword, hwords⟩ := List.cons.inj h
      have htext := String.toList_inj.mp (List.append_cancel_right hword)
      rw [text_injective hx.1 hy.1 hfirst.symm htext, ih hx.2 hy.2 hrest.symm hwords]

end Operand

/-! ## Instructions as words -/

namespace Instruction

def opcode : Instruction → Opcode
  | .li _ _ => .li
  | .mov _ _ => .mov
  | .addi _ _ _ => .addi
  | .binary op _ _ _ => .binary op
  | .not _ _ => .not
  | .load _ _ _ => .load
  | .store _ _ _ => .store
  | .push _ => .push
  | .pop _ => .pop
  | .jmp _ => .jmp
  | .jz _ _ => .jz
  | .call _ => .call
  | .ret => .ret

def operands : Instruction → List Operand
  | .li rd imm => [.register rd, .number imm.toInt]
  | .mov rd rs => [.register rd, .register rs]
  | .addi rd rs imm => [.register rd, .register rs, .number imm]
  | .binary _ rd rs1 rs2 => [.register rd, .register rs1, .register rs2]
  | .not rd rs => [.register rd, .register rs]
  | .load rd base offset => [.register rd, .address offset base]
  | .store rs base offset => [.register rs, .address offset base]
  | .push rs => [.register rs]
  | .pop rd => [.register rd]
  | .jmp target => [.target target]
  | .jz rs target => [.register rs, .target target]
  | .call callee => [.callee callee]
  | .ret => []

/-- The instruction with an opcode and operands, if they fit. -/
def ofParts? : Opcode → List Operand → Option Instruction
  | .li, [.register rd, .number imm] => some (.li rd (Int32.ofInt imm))
  | .mov, [.register rd, .register rs] => some (.mov rd rs)
  | .addi, [.register rd, .register rs, .number imm] => some (.addi rd rs imm)
  | .binary op, [.register rd, .register rs1, .register rs2] => some (.binary op rd rs1 rs2)
  | .not, [.register rd, .register rs] => some (.not rd rs)
  | .load, [.register rd, .address offset base] => some (.load rd base offset)
  | .store, [.register rs, .address offset base] => some (.store rs base offset)
  | .push, [.register rs] => some (.push rs)
  | .pop, [.register rd] => some (.pop rd)
  | .jmp, [.target target] => some (.jmp target)
  | .jz, [.register rs, .target target] => some (.jz rs target)
  | .call, [.callee callee] => some (.call callee)
  | .ret, [] => some .ret
  | _, _ => none

private theorem ofParts?_parts (i : Instruction) : ofParts? i.opcode i.operands = some i := by
  cases i with
  | li rd imm => exact congrArg (fun w => some (li rd w)) (Int32.ofInt_toInt imm)
  | _ => rfl

def words (i : Instruction) : List (List Char) :=
  i.opcode.text.toList :: Operand.words i.operands

private theorem toList_text (i : Instruction) : i.text.toList = [' '].intercalate i.words := by
  cases i <;> simp [text, words, opcode, operands, Operand.words, Opcode.text, Operand.text, List.intercalate]

private theorem kind_operands (i : Instruction) : i.operands.map Operand.kind = i.opcode.kinds := by
  cases i <;> rfl

private theorem names_operands (i : Instruction) : i.operands.flatMap Operand.names = i.names := by
  cases i <;> rfl

variable {i j : Instruction}

private theorem named_operands (hi : ∀ name ∈ i.names, Text.Named name) :
    ∀ x ∈ i.operands, ∀ name ∈ x.names, Text.Named name := by
  intro x hx name hname
  exact hi name (i.names_operands ▸ List.mem_flatMap_of_mem hx hname)

private theorem blank_not_mem_words (hi : ∀ name ∈ i.names, Text.Named name) : ∀ word ∈ i.words, ' ' ∉ word := by
  rw [words, List.forall_mem_cons]
  exact ⟨i.opcode.blank_not_mem_text, Operand.blank_not_mem_words (named_operands hi)⟩

/-- Different instructions have different texts. -/
theorem text_injective (hi : ∀ name ∈ i.names, Text.Named name) (hj : ∀ name ∈ j.names, Text.Named name)
    (h : i.text = j.text) : i = j := by
  have hwords : i.words = j.words := by
    rw [← List.splitOn_intercalate ' ' (blank_not_mem_words hi) (List.cons_ne_nil _ _), ← toList_text, h, toList_text,
      List.splitOn_intercalate ' ' (blank_not_mem_words hj) (List.cons_ne_nil _ _)]
  obtain ⟨hopcode, hoperands⟩ := List.cons.inj hwords
  have hcode : i.opcode = j.opcode := Opcode.text_injective (String.toList_inj.mp hopcode)
  have hkind : i.operands.map Operand.kind = j.operands.map Operand.kind := by
    rw [kind_operands, kind_operands, hcode]
  have hparts : i.operands = j.operands :=
    Operand.words_injective (named_operands hi) (named_operands hj) hkind hoperands
  apply Option.some.inj
  rw [← ofParts?_parts i, ← ofParts?_parts j, hcode, hparts]

end Instruction

/-! ## Lines and units -/

namespace Line

variable {line line' : Line} {ls ls' : List Line}

private theorem text_injective (h : ∀ name ∈ line.names, Text.Named name) (h' : ∀ name ∈ line'.names, Text.Named name)
    (htext : line.text = line'.text) : line = line' := by
  have hmargin {name : String} {i : Instruction} (hname : Text.Named name) : (label name).text ≠ (code i).text := by
    intro heq
    have hblank : ' ' ∈ (label name).text.toList := by
      rw [heq, text, String.toList_append]
      exact List.mem_cons_self
    rw [text, String.toList_append, List.mem_append] at hblank
    rcases hblank with hblank | hblank
    · exact absurd (hname ' ' hblank) (by decide)
    · exact absurd hblank (by decide)
  cases line with
  | label name =>
    cases line' with
    | label name' => rw [(String.append_left_inj ":").mp htext]
    | code i => exact absurd htext (hmargin (h name List.mem_cons_self))
  | code i =>
    cases line' with
    | label name => exact absurd htext.symm (hmargin (h' name List.mem_cons_self))
    | code j => rw [Instruction.text_injective h h' ((String.append_right_inj "    ").mp htext)]

private theorem map_text_injective (h : ∀ line ∈ ls, ∀ name ∈ line.names, Text.Named name)
    (h' : ∀ line ∈ ls', ∀ name ∈ line.names, Text.Named name)
    (htexts : ls.map (fun line => line.text.toList) = ls'.map fun line => line.text.toList) : ls = ls' := by
  induction ls generalizing ls' with
  | nil => exact (List.map_eq_nil_iff.mp htexts.symm).symm
  | cons line ls ih =>
    obtain ⟨line', ls', rfl, htext, hrest⟩ := List.map_eq_cons_iff.mp htexts.symm
    rw [List.forall_mem_cons] at h h'
    rw [text_injective h.1 h'.1 (String.toList_inj.mp htext.symm), ih h.2 h'.2 hrest.symm]

end Line

namespace Assembly

instance : DecidablePred Named :=
  fun asm => inferInstanceAs (Decidable (∀ line ∈ asm.lines, ∀ name ∈ line.names, Text.Named name))

private theorem Named.lines_text {asm : Assembly} (h : asm.Named) :
    Text.lines asm.text.toList = asm.lines.map (fun line => line.text.toList) ++ [[]] := by
  rw [text_eq, Link.Builtin.lines_ofLines, List.flatMap_map, List.map_eq_flatMap]
  congr 1
  exact List.flatMap_congr fun line hline => Line.lines_text (h line hline)

/-- Two units have the same text only if they have the same lines, whatever routines these belong to. It is enough
that the names in the code are made of letters, digits and underscores, as identifiers are. The texts of
single instructions differ too, so that those of calls tell whether the callee is external. -/
theorem text_unambiguous :
    (∀ asm asm' : Assembly, asm.Named → asm'.Named → (asm.text = asm'.text ↔ asm.lines = asm'.lines)) ∧
      ∀ i j : Instruction, (∀ name ∈ i.names, Text.Named name) → (∀ name ∈ j.names, Text.Named name) →
        (i.text = j.text ↔ i = j) := by
  refine ⟨fun asm asm' h h' => ⟨fun htext => ?_, fun hlines => by rw [text, text, hlines]⟩,
    fun i j hi hj => ⟨Instruction.text_injective hi hj, fun hij => by rw [hij]⟩⟩
  apply Line.map_text_injective h h'
  have hlines := congrArg (fun text => Text.lines text.toList) htext
  simp only [h.lines_text, h'.lines_text] at hlines
  exact List.append_cancel_right hlines

/-- A unit that loads a word and makes a call. -/
def oneCall (callee : Callee) : Assembly :=
  ⟨[⟨"start", [.push .lr], [.label "_if0", .code (.load .r0 .fp (-4)), .code (.call callee)], [.pop .lr, .ret]⟩]⟩

theorem text_unambiguous_callee :
    (oneCall (.internal "f")).Named ∧ (oneCall (.external "f")).Named ∧
      (oneCall (.internal "f")).text ≠ (oneCall (.external "f")).text ∧
      (Instruction.call (.internal "f")).text ≠ (Instruction.call (.external "f")).text := by
  have hinternal : (oneCall (.internal "f")).Named := by decide
  have hexternal : (oneCall (.external "f")).Named := by decide
  refine ⟨hinternal, hexternal, fun htext => ?_, fun htext => ?_⟩
  · have hlines := (text_unambiguous.1 _ _ hinternal hexternal).mp htext
    exact absurd hlines (by decide)
  · have hcall := (text_unambiguous.2 _ _ (by decide) (by decide)).mp htext
    exact absurd hcall (by decide)

end Assembly

end WordLang
