import KRust.Json.Write

/-!
The text of a JSON tree is parsed as that tree. What a text does to the parser is stated
for any open arrays and objects around it, so that texts compose; the formatters only add
whitespace.
-/

set_option linter.unusedSectionVars false

namespace KRust.Json

open KRust.Lib

section Texts

/-- Nothing but whitespace. -/
def Blank (chars : List Char) : Prop := ∀ c ∈ chars, Parse.isSpace c = true

/-- A text that may follow a number. -/
def Stops (chars : List Char) : Prop := ∀ c ∈ chars.head?, Parse.isDelimiter c = true

/-- What stands between the quotes of a string. -/
inductive StringBody : List Char → Prop where
  | nil : StringBody []
  | plain {c : Char} {rest : List Char} :
    0x20 ≤ c.toNat → c ≠ '"' → c ≠ '\\' → StringBody rest → StringBody (c :: rest)
  | escape {c : Char} {rest : List Char} : StringBody rest → StringBody ('\\' :: c :: rest)

/-- The token of a number: it starts like one and nothing in it ends one. -/
structure IsNumber (tokens : TokenReader) (token : List Char) : Prop where
  starts : ∃ c rest, token = c :: rest ∧ (c = '-' || c.isDigit) = true
  whole : ∀ c ∈ token, Parse.isDelimiter c = false
  reads : tokens.number token = .ok ()

/-- A tree that the parser can give: every number is one, every key occurs once. -/
inductive Node.Readable (tokens : TokenReader) : Node → Prop where
  | null : Readable tokens .null
  | bool (value : Bool) : Readable tokens (.bool value)
  | number {token : List Char} : IsNumber tokens token → Readable tokens (.number token)
  | string (value : String) : Readable tokens (.string value)
  | array {values : List Node} :
    (∀ value ∈ values, Readable tokens value) → Readable tokens (.array values)
  | object {members : List (String × Node)} :
    (members.map Prod.fst).Nodup → (∀ member ∈ members, Readable tokens member.2) →
      Readable tokens (.object members)

/-- A formatter that adds nothing but whitespace to the marks of JSON. -/
structure Formatter.Lawful {F : Type} (formatter : Formatter F) : Prop where
  beginArray : ∀ s, (formatter.beginArray s).2 = ['[']
  endArray : ∀ s, ∃ blank, Blank blank ∧ (formatter.endArray s).2 = blank ++ [']']
  beginArrayValue : ∀ first s, ∃ blank, Blank blank ∧
    (formatter.beginArrayValue first s).2 = (if first then [] else [',']) ++ blank
  endArrayValue : ∀ s, Blank (formatter.endArrayValue s).2
  beginObject : ∀ s, (formatter.beginObject s).2 = ['\x7b']
  endObject : ∀ s, ∃ blank, Blank blank ∧ (formatter.endObject s).2 = blank ++ ['\x7d']
  beginObjectKey : ∀ first s, ∃ blank, Blank blank ∧
    (formatter.beginObjectKey first s).2 = (if first then [] else [',']) ++ blank
  endObjectKey : ∀ s, Blank (formatter.endObjectKey s).2
  beginObjectValue : ∀ s, ∃ before after, Blank before ∧ Blank after ∧
    (formatter.beginObjectValue s).2 = before ++ ':' :: after
  endObjectValue : ∀ s, Blank (formatter.endObjectValue s).2

/-- What the serialization library promises: its strings are read back and are tokens of
JSON, a string without escapes stands for itself, machine numbers are numbers, and the
compact formatter adds nothing. -/
structure Serializer.Faithful (library : Serializer) : Prop where
  null : library.writer.null = "null".toList
  bool : ∀ value, library.writer.bool value = (if value then "true" else "false").toList
  number : ∀ token, library.writer.number token = token
  string_token : ∀ value, ∃ body, library.writer.string value = '"' :: body ++ ['"'] ∧
    StringBody body
  string_read : ∀ value, library.reader.string (library.writer.string value) = .ok value
  string_plain : ∀ body : List Char, (∀ c ∈ body, 0x20 ≤ c.toNat ∧ c ≠ '"' ∧ c ≠ '\\') →
    library.reader.string ('"' :: body ++ ['"']) = .ok (String.ofList body)
  natural : ∀ n < 2 ^ 64, library.reader.number (Nat.toDigits 10 n) = .ok ()
  compact : library.compact.Lawful

theorem StringBody.plain_of_not_mem {body : List Char} (h : StringBody body)
    (hescape : '\\' ∉ body) : ∀ c ∈ body, 0x20 ≤ c.toNat ∧ c ≠ '"' ∧ c ≠ '\\' := by
  induction h with
  | nil => simp
  | plain hc hquote hne _ ih =>
    rw [List.forall_mem_cons]
    exact ⟨⟨hc, hquote, hne⟩, ih fun hmem => hescape (List.mem_cons_of_mem _ hmem)⟩
  | escape => exact absurd List.mem_cons_self hescape

theorem Blank.append {s t : List Char} (hs : Blank s) (ht : Blank t) : Blank (s ++ t) := by
  intro c hc
  rcases List.mem_append.mp hc with hc | hc
  · exact hs c hc
  · exact ht c hc

theorem Blank.stops {chars : List Char} (h : Blank chars) : Stops chars := by
  intro c hc
  simp [Parse.isDelimiter, h c (List.mem_of_mem_head? hc)]

theorem Stops.append {s t : List Char} (hs : Stops s) (ht : Stops t) : Stops (s ++ t) := by
  cases s with
  | nil => exact ht
  | cons c s =>
    rintro _ ⟨⟩
    exact hs c rfl

theorem stops_cons {c : Char} (h : Parse.isDelimiter c = true) (rest : List Char) :
    Stops (c :: rest) := by
  rintro _ ⟨⟩
  exact h

theorem isNumber_decimal {library : Serializer} (hlibrary : library.Faithful) {n : Nat}
    (h : n < 2 ^ 64) : IsNumber library.reader (decimal n) := by
  have hdigits : ∀ c ∈ decimal n, c.isDigit = true :=
    fun c hc => Nat.isDigit_of_mem_toDigits (by decide) (by decide) hc
  constructor
  · cases hcons : decimal n with
    | nil => exact absurd hcons Nat.toDigits_ne_nil
    | cons c rest =>
      refine ⟨c, rest, rfl, ?_⟩
      rw [hdigits c (by simp [hcons]), Bool.or_true]
  · intro c hc
    apply Parse.digit_not_delimiter
    rw [hdigits c hc, Bool.or_true]
  · exact hlibrary.natural n h

end Texts

namespace Parse

variable (tokens : TokenReader) (input : List Char)

section Turns

theorem run_loop (state : State) (chars : List Char) :
    (loop tokens input state).run chars
      = (whitespace >>= fun _ => turn tokens input state >>= Sum.elim (loop tokens input) pure).run
          chars := by
  rw [loop, Reader.loop_eq, step, bind_assoc]

/-- Whitespace before a turn is read. -/
theorem run_blank {blank : List Char} (h : Blank blank) (state : State) (chars : List Char) :
    (loop tokens input state).run (blank ++ chars) = (loop tokens input state).run chars := by
  rw [run_loop, run_loop, Reader.run_bind, Reader.run_bind, whitespace, Reader.run_takeWhile,
    Reader.run_takeWhile, List.dropWhile_append_of_pos h]

/-- A turn at a character that is not whitespace. -/
theorem run_turn {c : Char} (hc : isSpace c = false) (state : State) (rest : List Char) :
    (loop tokens input state).run (c :: rest)
      = (turn tokens input state >>= Sum.elim (loop tokens input) pure).run (c :: rest) := by
  rw [run_loop, Reader.run_bind, whitespace, Reader.run_takeWhile]
  simp only [List.dropWhile_cons, hc, Bool.false_eq_true, if_false]

/-- A turn that gives a state goes on from it. -/
theorem run_inl {c : Char} {rest rest' : List Char} {state state' : State}
    (hc : isSpace c = false)
    (h : (turn tokens input state).run (c :: rest) = .ok (.inl state', rest')) :
    (loop tokens input state).run (c :: rest) = (loop tokens input state').run rest' := by
  rw [run_turn tokens input hc, Reader.run_bind, h]
  rfl

variable {tokens input} {stack : List Frame} {root : Option Node} {state : State}

theorem run_attached {value : Node} (h : attach value stack root = .ok state)
    (chars : List Char) :
    (attached input value stack root).run chars = .ok (.inl state, chars) := by
  rw [attached, h]
  rfl

theorem turn_value {value : Node} {text rest : List Char}
    (hvalue : (Parse.value tokens input).run text = .ok (.value value, rest))
    (h : attach value stack root = .ok state) :
    (turn tokens input ⟨stack, root, .value⟩).run text = .ok (.inl state, rest) := by
  show (valueStep tokens input _).run text = _
  rw [valueStep, Reader.run_bind, hvalue]
  exact run_attached h rest

theorem run_openArray (rest : List Char) :
    (loop tokens input ⟨stack, root, .value⟩).run ('[' :: rest)
      = (loop tokens input ⟨.array [] :: stack, root, .arrayValueOrEnd⟩).run rest :=
  run_inl tokens input rfl rfl

theorem run_openObject (rest : List Char) :
    (loop tokens input ⟨stack, root, .value⟩).run ('\x7b' :: rest)
      = (loop tokens input ⟨.object [] none :: stack, root, .objectKeyOrEnd⟩).run rest :=
  run_inl tokens input rfl rfl

theorem run_arrayComma (rest : List Char) :
    (loop tokens input ⟨stack, root, .arrayDelimiter⟩).run (',' :: rest)
      = (loop tokens input ⟨stack, root, .value⟩).run rest :=
  run_inl tokens input rfl rfl

theorem run_objectComma (rest : List Char) :
    (loop tokens input ⟨stack, root, .objectDelimiter⟩).run (',' :: rest)
      = (loop tokens input ⟨stack, root, .objectKey⟩).run rest :=
  run_inl tokens input rfl rfl

theorem run_closeArray {values : List Node} {action : Action}
    (haction : action = .arrayValueOrEnd ∨ action = .arrayDelimiter)
    (h : attach (.array values) stack root = .ok state) (rest : List Char) :
    (loop tokens input ⟨.array values :: stack, root, action⟩).run (']' :: rest)
      = (loop tokens input state).run rest := by
  apply run_inl tokens input rfl
  rcases haction with rfl | rfl <;> exact run_attached h rest

theorem run_closeObject {members : List (String × Node)} {action : Action}
    (haction : action = .objectKeyOrEnd ∨ action = .objectDelimiter)
    (h : attach (.object members) stack root = .ok state) (rest : List Char) :
    (loop tokens input ⟨.object members none :: stack, root, action⟩).run ('\x7d' :: rest)
      = (loop tokens input state).run rest := by
  apply run_inl tokens input rfl
  rcases haction with rfl | rfl <;> exact run_attached h rest

/-- The first value of an array is read like any other. -/
theorem run_firstValue {c : Char} (hc : isSpace c = false) (hend : c ≠ ']') (rest : List Char) :
    (loop tokens input ⟨stack, root, .arrayValueOrEnd⟩).run (c :: rest)
      = (loop tokens input ⟨stack, root, .value⟩).run (c :: rest) := by
  rw [run_turn tokens input hc, run_turn tokens input hc]
  show (((consume ']' >>= _) : Parser _) >>= _).run _ = (valueStep tokens input _ >>= _).run _
  rw [bind_assoc, Reader.run_bind, run_consume_cons, if_neg hend]
  show ((whitespace >>= _) >>= _ : Parser _).run _ = _
  rw [bind_assoc, Reader.run_bind, whitespace, Reader.run_takeWhile]
  simp only [List.dropWhile_cons, hc, Bool.false_eq_true, if_false]
  rfl

/-- The text is whitespace after the value of the whole text. -/
theorem run_finished {blank : List Char} (h : Blank blank) (value : Node) :
    (loop tokens input ⟨[], some value, .finished⟩).run blank = .ok (value, []) := by
  rw [← List.append_nil blank, run_blank tokens input h, run_loop]
  rfl

end Turns

section Leaves

variable {tokens input}

theorem run_expect (c : Char) (message : String) (rest : List Char) :
    (expect input c message).run (c :: rest) = .ok ((), rest) := by
  rw [expect, Reader.run_bind, run_consume_cons, if_pos rfl]
  rfl

/-- A character of a string that stands for itself. -/
theorem run_stringStep_plain {c : Char} (hc : 0x20 ≤ c.toNat) (hquote : c ≠ '"')
    (hescape : c ≠ '\\') (s : StringState) (rest : List Char) :
    (stringStep input s).run (c :: rest) = .ok (.inl ⟨s.escaped, s.text ++ [c]⟩, rest) := by
  rw [stringStep, Reader.run_bind, Reader.run_take_cons, if_pos (by simp [hc])]
  dsimp only
  split
  · cases ‹some c = none›
  · exact absurd (Option.some.inj ‹_›) hquote
  · exact absurd (Option.some.inj ‹_›) hescape
  · cases ‹some c = some _›
    rfl

/-- A string is read up to the quote that ends it. -/
theorem run_stringLoop {body : List Char} (h : StringBody body) (s : StringState)
    (rest : List Char) :
    (Reader.loop (stringStep input) (stringStep_advances input) s).run (body ++ '"' :: rest)
      = .ok (⟨s.escaped || decide ('\\' ∈ body), s.text ++ body⟩, rest) := by
  induction h generalizing s with
  | nil =>
    rw [Reader.loop_eq]
    simp
    rfl
  | @plain c body hc hquote hescape _ ih =>
    rw [Reader.loop_eq, List.cons_append, Reader.run_bind,
      run_stringStep_plain hc hquote hescape]
    show (Reader.loop (stringStep input) _ (⟨s.escaped, s.text ++ [c]⟩ : StringState)).run _ = _
    rw [ih]
    simp [Ne.symm hescape]
  | @escape c body _ ih =>
    rw [Reader.loop_eq, List.cons_append, List.cons_append, Reader.run_bind]
    show (Reader.loop (stringStep input) _ (⟨true, s.text ++ ['\\', c]⟩ : StringState)).run _ = _
    rw [ih]
    simp

/-- The text that the library writes of a string is read as the string. -/
theorem run_string {library : Serializer} (hlibrary : library.Faithful) (input : List Char)
    (value : String) (rest : List Char) :
    (string library.reader input).run (library.writer.string value ++ rest) = .ok (value, rest) := by
  obtain ⟨body, hwrite, hbody⟩ := hlibrary.string_token value
  have hread := hlibrary.string_read value
  rw [hwrite] at hread
  have htext : library.writer.string value ++ rest = '"' :: (body ++ '"' :: rest) := by
    rw [hwrite]
    simp
  rw [htext, string, Reader.run_bind, run_expect]
  show (Reader.loop (stringStep input) _ _ >>= _).run _ = _
  rw [Reader.run_bind, run_stringLoop hbody]
  by_cases hescape : '\\' ∈ body
  · simp only [hescape, Bool.false_or, decide_true, if_true, List.nil_append]
    rw [hread]
    rfl
  · have hplain := hlibrary.string_plain body (hbody.plain_of_not_mem hescape)
    rw [hread] at hplain
    cases hplain
    simp [hescape]

theorem run_literal {token : List Char} (value : Node) (rest : List Char) :
    (literal input token value).run (token ++ rest) = .ok (value, rest) := by
  rw [literal, Reader.run_bind, Reader.run_takeAll, if_pos (by simp)]
  simp

theorem run_number (input : List Char) {token : List Char} (h : IsNumber tokens token) {rest : List Char}
    (hrest : Stops rest) :
    (number tokens input).run (token ++ rest) = .ok (token, rest) := by
  have hwhole : ∀ c ∈ token, (!isDelimiter c) = true := fun c hc => by simp [h.whole c hc]
  have hstops : rest.takeWhile (!isDelimiter ·) = [] ∧ rest.dropWhile (!isDelimiter ·) = rest := by
    cases rest with
    | nil => simp
    | cons c rest => simp [hrest c rfl]
  have htake : (token ++ rest).takeWhile (!isDelimiter ·) = token := by
    rw [List.takeWhile_append_of_pos hwhole, hstops.1, List.append_nil]
  have hdrop : (token ++ rest).dropWhile (!isDelimiter ·) = rest := by
    rw [List.dropWhile_append_of_pos hwhole, hstops.2]
  rw [number, Reader.run_bind, Reader.run_takeWhile, htake, hdrop]
  dsimp only
  rw [h.reads]
  rfl

/-- A key, a colon and the whitespace around them. -/
theorem run_key {library : Serializer} (hlibrary : library.Faithful) {key : String}
    {members : List (String × Node)} (hkey : key ∉ members.map Prod.fst)
    {stack : List Frame} {root : Option Node} {action : Action}
    (haction : action = .objectKeyOrEnd ∨ action = .objectKey)
    {before : List Char} (hbefore : Blank before) (rest : List Char) :
    (loop library.reader input ⟨.object members none :: stack, root, action⟩).run
        (library.writer.string key ++ (before ++ ':' :: rest))
      = (loop library.reader input ⟨.object members (some key) :: stack, root, .value⟩).run rest := by
  obtain ⟨body, hwrite, -⟩ := hlibrary.string_token key
  have hstring := run_string hlibrary input key (before ++ ':' :: rest)
  have hstep : (keyStep library.reader input
        ⟨.object members none :: stack, root, action⟩).run
      (library.writer.string key ++ (before ++ ':' :: rest))
      = .ok (.inl ⟨.object members (some key) :: stack, root, .value⟩, rest) := by
    have hnew : ¬ (members.any fun member => member.1 = key) = true := by
      intro hany
      obtain ⟨member, hmember, heq⟩ := List.any_eq_true.mp hany
      exact hkey (List.mem_map.mpr ⟨member, hmember, by simpa using heq⟩)
    have hspace : (before ++ ':' :: rest).dropWhile isSpace = ':' :: rest := by
      rw [List.dropWhile_append_of_pos hbefore]
      rfl
    rw [keyStep, Reader.run_bind, hstring]
    dsimp only
    rw [if_neg hnew, Reader.run_bind, whitespace, Reader.run_takeWhile, hspace]
    dsimp only
    rw [Reader.run_bind, run_expect]
    rfl
  rw [hwrite, List.cons_append, List.cons_append] at hstep ⊢
  apply run_inl _ _ rfl
  rcases haction with rfl | rfl
  · exact hstep
  · exact hstep

end Leaves

end Parse

section Reads

open Parse

variable {library : Serializer} {input : List Char}

/-- A text that is read as a value, whatever is open around it. -/
structure Reads (library : Serializer) (input : List Char) (value : Node) (text : List Char) :
    Prop where
  starts : ∃ c rest, text = c :: rest ∧ isSpace c = false ∧ c ≠ ']'
  run : ∀ {stack root state rest}, attach value stack root = .ok state → Stops rest →
    (loop library.reader input ⟨stack, root, .value⟩).run (text ++ rest)
      = (loop library.reader input state).run rest

/-- A value that one turn reads. -/
theorem Reads.of_value {value : Node} {text : List Char}
    (hstarts : ∃ c rest, text = c :: rest ∧ isSpace c = false ∧ c ≠ ']')
    (h : ∀ rest, Stops rest →
      (Parse.value library.reader input).run (text ++ rest) = .ok (.value value, rest)) :
    Reads library input value text := by
  constructor
  · exact hstarts
  · intro stack root state rest hattach hrest
    have hvalue := turn_value (h rest hrest) hattach
    obtain ⟨c, text, rfl, hc, -⟩ := hstarts
    exact run_inl _ _ hc hvalue

/-- A literal is read when its first character is the one the parser looks for. -/
theorem reads_literal {value : Node} {c : Char} (token : List Char) (hc : isSpace c = false)
    (hend : c ≠ ']')
    (h : ∀ rest, (Parse.value library.reader input).run (c :: rest)
      = (literal input (c :: token) value >>= fun value => pure (.value value)).run (c :: rest)) :
    Reads library input value (c :: token) := by
  apply Reads.of_value ⟨c, token, rfl, hc, hend⟩
  intro rest _
  rw [List.cons_append, h, Reader.run_bind, ← List.cons_append, run_literal]
  rfl

theorem reads_null : Reads library input .null "null".toList :=
  reads_literal "ull".toList rfl (by decide) fun _ => rfl

theorem reads_bool (value : Bool) :
    Reads library input (.bool value) (if value then "true" else "false").toList := by
  cases value with
  | false => exact reads_literal "alse".toList rfl (by decide) fun _ => rfl
  | true => exact reads_literal "rue".toList rfl (by decide) fun _ => rfl

theorem reads_string (hlibrary : library.Faithful) (value : String) :
    Reads library input (.string value) (library.writer.string value) := by
  obtain ⟨body, hwrite, -⟩ := hlibrary.string_token value
  have hstring := run_string hlibrary input value
  rw [hwrite] at hstring ⊢
  apply Reads.of_value ⟨'"', _, rfl, rfl, by decide⟩
  intro rest _
  show (string library.reader input >>= _).run ('"' :: body ++ ['"'] ++ rest) = _
  rw [Reader.run_bind, hstring]
  rfl

theorem value_number {c : Char} {chars : List Char} (hc : (c = '-' || c.isDigit) = true) :
    (Parse.value library.reader input).run (c :: chars)
      = (number library.reader input >>= fun token => pure (.value (.number token))).run
          (c :: chars) := by
  rw [value, Reader.run_bind, Reader.run_ahead]
  dsimp only [List.head?_cons]
  split
  case h_7 =>
    cases ‹some c = some _›
    rw [if_pos hc]
  case h_8 => cases ‹some c = none›
  all_goals
    cases Option.some.inj ‹some c = some _›
    exact absurd hc (by decide)

theorem reads_number {token : List Char} (h : IsNumber library.reader token) :
    Reads library input (.number token) token := by
  obtain ⟨c, text, htoken, hc⟩ := h.starts
  have hdelimiter := digit_not_delimiter hc
  apply Reads.of_value
  · refine ⟨c, text, htoken, ?_, ?_⟩
    · simp only [isDelimiter, Bool.or_eq_false_iff] at hdelimiter
      exact hdelimiter.1.1.1
    · rintro rfl
      exact absurd hdelimiter (by decide)
  · intro rest hrest
    have hrun := run_number input h hrest
    rw [htoken, List.cons_append] at hrun ⊢
    rw [value_number hc, Reader.run_bind, hrun]
    rfl

/-- The values of an array after the first, each after a comma. -/
structure ReadsItems (library : Serializer) (input : List Char) (values : List Node)
    (text : List Char) : Prop where
  stops : Stops text
  run : ∀ {read stack root rest}, Stops rest →
    (loop library.reader input ⟨.array read :: stack, root, .arrayDelimiter⟩).run (text ++ rest)
      = (loop library.reader input ⟨.array (read ++ values) :: stack, root, .arrayDelimiter⟩).run rest

theorem readsItems_nil : ReadsItems library input [] [] := by
  constructor
  · rintro _ ⟨⟩
  · intro read stack root rest _
    rw [List.append_nil]
    rfl

theorem ReadsItems.cons {value : Node} {values : List Node} {before text after rest : List Char}
    (hvalue : Reads library input value text) (hbefore : Blank before) (hafter : Blank after)
    (h : ReadsItems library input values rest) :
    ReadsItems library input (value :: values) (',' :: (before ++ text ++ after ++ rest)) := by
  constructor
  · exact stops_cons rfl _
  · intro read stack root tail htail
    have hstops := hafter.stops.append (h.stops.append htail)
    rw [List.cons_append, run_arrayComma]
    simp only [List.append_assoc]
    rw [run_blank _ _ hbefore, hvalue.run rfl hstops, run_blank _ _ hafter, h.run htail,
      List.append_assoc]
    rfl

theorem reads_emptyArray {blank : List Char} (hblank : Blank blank) :
    Reads library input (.array []) ('[' :: (blank ++ [']'])) := by
  constructor
  · exact ⟨'[', _, rfl, rfl, by decide⟩
  · intro stack root state rest hattach _
    rw [List.cons_append, run_openArray, List.append_assoc, run_blank _ _ hblank]
    exact run_closeArray (.inl rfl) hattach rest

theorem reads_array {value : Node} {values : List Node} {before text after items close : List Char}
    (hvalue : Reads library input value text) (hbefore : Blank before) (hafter : Blank after)
    (hitems : ReadsItems library input values items) (hclose : Blank close) :
    Reads library input (.array (value :: values))
      ('[' :: (before ++ text ++ after ++ items ++ (close ++ [']']))) := by
  constructor
  · exact ⟨'[', _, rfl, rfl, by decide⟩
  · intro stack root state rest hattach hrest
    have hend : Stops (close ++ ']' :: rest) := hclose.stops.append (stops_cons rfl rest)
    have hfirst : (loop library.reader input ⟨.array [] :: stack, root, .arrayValueOrEnd⟩).run
          (text ++ (after ++ (items ++ (close ++ ']' :: rest))))
        = (loop library.reader input ⟨.array [value] :: stack, root, .arrayDelimiter⟩).run
          (after ++ (items ++ (close ++ ']' :: rest))) := by
      have hattach : attach value (.array [] :: stack) root
          = .ok ⟨.array [value] :: stack, root, .arrayDelimiter⟩ := rfl
      have hrun := hvalue.run hattach (hafter.stops.append (hitems.stops.append hend))
      obtain ⟨c, text, rfl, hc, hne⟩ := hvalue.starts
      exact (run_firstValue hc hne _).trans hrun
    rw [List.cons_append, run_openArray]
    simp only [List.append_assoc, List.cons_append, List.nil_append]
    rw [run_blank _ _ hbefore, hfirst, run_blank _ _ hafter, hitems.run hend, run_blank _ _ hclose]
    exact run_closeArray (.inr rfl) hattach rest

/-- A member of an object: its key, the colon, its value and the whitespace around them. -/
structure MemberText (library : Serializer) (input : List Char) (member : String × Node)
    (text : List Char) : Prop where
  run : ∀ {read stack root rest action},
    action = .objectKeyOrEnd ∨ action = .objectKey →
    member.1 ∉ read.map Prod.fst → Stops rest →
    (loop library.reader input ⟨.object read none :: stack, root, action⟩).run (text ++ rest)
      = (loop library.reader input ⟨.object (read ++ [member]) none :: stack, root,
          .objectDelimiter⟩).run rest

theorem memberText (hlibrary : library.Faithful) {key : String} {value : Node}
    {start before middle text after : List Char} (hvalue : Reads library input value text)
    (hstart : Blank start) (hbefore : Blank before) (hmiddle : Blank middle)
    (hafter : Blank after) :
    MemberText library input (key, value)
      (start ++ (library.writer.string key ++ (before ++ ':' :: (middle ++ (text ++ after))))) := by
  constructor
  intro read stack root rest action haction hkey hrest
  simp only [List.append_assoc, List.cons_append]
  rw [run_blank _ _ hstart, run_key hlibrary hkey haction hbefore, run_blank _ _ hmiddle,
    hvalue.run rfl (hafter.stops.append hrest), run_blank _ _ hafter]

structure ReadsMembers (library : Serializer) (input : List Char) (members : List (String × Node))
    (text : List Char) : Prop where
  stops : Stops text
  run : ∀ {read stack root rest}, ((read ++ members).map Prod.fst).Nodup → Stops rest →
    (loop library.reader input ⟨.object read none :: stack, root, .objectDelimiter⟩).run
        (text ++ rest)
      = (loop library.reader input ⟨.object (read ++ members) none :: stack, root,
          .objectDelimiter⟩).run rest

theorem readsMembers_nil : ReadsMembers library input [] [] := by
  constructor
  · rintro _ ⟨⟩
  · intro read stack root rest _ _
    rw [List.append_nil]
    rfl

theorem key_new {read members : List (String × Node)} {member : String × Node}
    (h : ((read ++ member :: members).map Prod.fst).Nodup) : member.1 ∉ read.map Prod.fst := by
  rw [List.map_append, List.map_cons] at h
  exact fun hmem => (List.nodup_append.mp h).2.2 _ hmem _ List.mem_cons_self rfl

theorem ReadsMembers.cons {member : String × Node} {members : List (String × Node)}
    {text rest : List Char} (hmember : MemberText library input member text)
    (h : ReadsMembers library input members rest) :
    ReadsMembers library input (member :: members) (',' :: (text ++ rest)) := by
  constructor
  · exact stops_cons rfl _
  · intro read stack root tail hkeys htail
    rw [List.cons_append, run_objectComma, List.append_assoc,
      hmember.run (.inr rfl) (key_new hkeys) (h.stops.append htail),
      h.run (by simpa using hkeys) htail, List.append_assoc]
    rfl

theorem reads_emptyObject {blank : List Char} (hblank : Blank blank) :
    Reads library input (.object []) ('\x7b' :: (blank ++ ['\x7d'])) := by
  constructor
  · exact ⟨'\x7b', _, rfl, rfl, by decide⟩
  · intro stack root state rest hattach _
    rw [List.cons_append, run_openObject, List.append_assoc, run_blank _ _ hblank]
    exact run_closeObject (.inl rfl) hattach rest

theorem reads_object {member : String × Node} {members : List (String × Node)}
    {text items close : List Char} (hkeys : ((member :: members).map Prod.fst).Nodup)
    (hmember : MemberText library input member text)
    (hmembers : ReadsMembers library input members items) (hclose : Blank close) :
    Reads library input (.object (member :: members))
      ('\x7b' :: (text ++ items ++ (close ++ ['\x7d']))) := by
  constructor
  · exact ⟨'\x7b', _, rfl, rfl, by decide⟩
  · intro stack root state rest hattach hrest
    have hend : Stops (close ++ '\x7d' :: rest) := hclose.stops.append (stops_cons rfl rest)
    rw [List.cons_append, run_openObject]
    simp only [List.append_assoc, List.cons_append, List.nil_append]
    rw [hmember.run (.inl rfl) (by simp) (hmembers.stops.append hend),
      hmembers.run (by simpa using hkeys) hend, run_blank _ _ hclose]
    exact run_closeObject (.inr rfl) hattach rest

end Reads

section Writes

variable {library : Serializer} {input : List Char} {F : Type} {formatter : Formatter F}

/-- Tasks that write texts that satisfy something, after whatever was written before. -/
def Task.Writes (library : Serializer) (formatter : Formatter F) (tasks : List Task)
    (post : List Char → Prop) : Prop :=
  ∀ s output, ∃ s' text, (writeNode formatter library.writer).run tasks (s, output)
    = some (s', output ++ text) ∧ post text

theorem Task.Writes.nil {post : List Char → Prop} (h : post []) :
    Task.Writes library formatter [] post := by
  intro s output
  exact ⟨s, [], by simp, h⟩

theorem Task.Writes.append {first rest : List Task} {P post : List Char → Prop}
    (h : Task.Writes library formatter first P)
    (hrest : ∀ text, P text → Task.Writes library formatter rest fun text' => post (text ++ text')) :
    Task.Writes library formatter (first ++ rest) post := by
  intro s output
  obtain ⟨s', text, hrun, htext⟩ := h s output
  obtain ⟨s'', text', hrun', htext'⟩ := hrest text htext s' (output ++ text)
  refine ⟨s'', text ++ text', ?_, htext'⟩
  rw [Worklist.run_append, hrun, ← List.append_assoc]
  exact hrun'

theorem Task.Writes.cons {t : Task} {rest : List Task} {P post : List Char → Prop}
    (h : Task.Writes library formatter [t] P)
    (hrest : ∀ text, P text → Task.Writes library formatter rest fun text' => post (text ++ text')) :
    Task.Writes library formatter (t :: rest) post :=
  h.append hrest

/-- A task that writes something and leads to others. -/
theorem Task.Writes.task {t : Task} {P post : List Char → Prop}
    (hwrite : ∀ s output, ∃ s' text, t.write formatter library.writer (s, output)
      = (s', output ++ text) ∧ P text)
    (hrest : ∀ text, P text →
      Task.Writes library formatter t.pending fun text' => post (text ++ text')) :
    Task.Writes library formatter [t] post := by
  intro s output
  obtain ⟨s', text, hstep, htext⟩ := hwrite s output
  obtain ⟨s'', text', hrun', htext'⟩ := hrest text htext s' (output ++ text)
  refine ⟨s'', text ++ text', ?_, htext'⟩
  rw [Worklist.run_cons, List.append_nil, ← List.append_assoc]
  show (some (t.write formatter library.writer (s, output))).bind _ = _
  rw [hstep]
  exact hrun'

theorem Task.Writes.mono {tasks : List Task} {P post : List Char → Prop}
    (h : Task.Writes library formatter tasks P) (himp : ∀ text, P text → post text) :
    Task.Writes library formatter tasks post := by
  intro s output
  obtain ⟨s', text, hrun, htext⟩ := h s output
  exact ⟨s', text, hrun, himp text htext⟩

/-- A task that writes something and leads to no others. -/
theorem Task.Writes.leaf {t : Task} {post : List Char → Prop} (hpending : t.pending = [])
    (hwrite : ∀ s output, ∃ s' text, t.write formatter library.writer (s, output)
      = (s', output ++ text) ∧ post text) : Task.Writes library formatter [t] post := by
  apply Task.Writes.task hwrite
  intro text htext
  rw [hpending]
  apply Task.Writes.nil
  rwa [List.append_nil]

theorem mapIdx_first {α : Type} (task : α → Bool → Task) (x : α) (xs : List α) :
    ((x :: xs).mapIdx fun index x => task x (index = 0))
      = task x true :: xs.map fun x => task x false := by
  rw [List.mapIdx_cons]
  congr 1
  apply List.ext_getElem <;> simp

variable (hlibrary : library.Faithful) (hformatter : formatter.Lawful)
include hlibrary hformatter

theorem writes_arrayValue {value : Node} (first : Bool)
    (h : Task.Writes library formatter [.node value] (Reads library input value)) :
    Task.Writes library formatter [.arrayValue value first] fun text =>
      ∃ before body after, text = (if first then [] else [',']) ++ (before ++ body ++ after) ∧
        Blank before ∧ Reads library input value body ∧ Blank after := by
  apply Task.Writes.task (P := fun text => ∃ before, Blank before ∧
    text = (if first then [] else [',']) ++ before)
  · intro s output
    obtain ⟨before, hbefore, hwrite⟩ := hformatter.beginArrayValue first s
    exact ⟨_, _, rfl, before, hbefore, hwrite⟩
  · rintro _ ⟨before, hbefore, rfl⟩
    apply h.cons
    intro body hbody
    apply Task.Writes.leaf rfl
    intro s output
    exact ⟨_, _, rfl, before, body, _, by simp, hbefore, hbody, hformatter.endArrayValue s⟩

theorem writes_items {values : List Node}
    (h : ∀ value ∈ values, Task.Writes library formatter [.node value] (Reads library input value)) :
    Task.Writes library formatter (values.map fun value => .arrayValue value false)
      (ReadsItems library input values) := by
  induction values with
  | nil => exact Task.Writes.nil readsItems_nil
  | cons value values ih =>
    rw [List.forall_mem_cons] at h
    apply (writes_arrayValue hlibrary hformatter false h.1).cons
    rintro _ ⟨before, body, after, rfl, hbefore, hbody, hafter⟩
    apply (ih h.2).mono
    intro rest hrest
    exact hrest.cons hbody hbefore hafter

theorem writes_array {values : List Node}
    (h : ∀ value ∈ values, Task.Writes library formatter [.node value] (Reads library input value)) :
    Task.Writes library formatter [.node (.array values)] (Reads library input (.array values)) := by
  have hclose : Task.Writes library formatter [.endArray] fun text =>
      ∃ close, Blank close ∧ text = close ++ [']'] := by
    apply Task.Writes.leaf rfl
    intro s output
    exact ⟨_, _, rfl, hformatter.endArray s⟩
  apply Task.Writes.task (P := fun text => text = ['['])
  · intro s output
    exact ⟨_, _, rfl, hformatter.beginArray s⟩
  · rintro _ rfl
    cases values with
    | nil =>
      apply hclose.mono
      rintro _ ⟨close, hblank, rfl⟩
      exact reads_emptyArray hblank
    | cons value values =>
      rw [List.forall_mem_cons] at h
      rw [Task.pending, mapIdx_first (fun value first => .arrayValue value first),
        List.cons_append]
      apply (writes_arrayValue hlibrary hformatter true h.1).cons
      rintro _ ⟨before, body, after, rfl, hbefore, hbody, hafter⟩
      apply (writes_items hlibrary hformatter h.2).append
      intro items hitems
      apply hclose.mono
      rintro _ ⟨close, hblank, rfl⟩
      have hread := reads_array hbody hbefore hafter hitems hblank
      simpa using hread

theorem writes_member {key : String} {value : Node} (first : Bool)
    (h : Task.Writes library formatter [.node value] (Reads library input value)) :
    Task.Writes library formatter [.member key value first] fun text =>
      ∃ body, text = (if first then [] else [',']) ++ body ∧
        MemberText library input (key, value) body := by
  apply Task.Writes.task (P := fun text => ∃ start before middle, Blank start ∧ Blank before ∧
    Blank middle ∧ text = (if first then [] else [',']) ++
      (start ++ (library.writer.string key ++ (before ++ ':' :: middle))))
  · intro s output
    let opened := formatter.beginObjectKey first s
    let named := formatter.endObjectKey opened.1
    obtain ⟨start, hstart, hopen⟩ := hformatter.beginObjectKey first s
    obtain ⟨before, middle, hbefore, hmiddle, hcolon⟩ := hformatter.beginObjectValue named.1
    refine ⟨(formatter.beginObjectValue named.1).1, _, ?_, start, named.2 ++ before, middle, hstart,
      (hformatter.endObjectKey opened.1).append hbefore, hmiddle, rfl⟩
    simp [Task.write, put, hopen, hcolon, opened, named]
  · rintro _ ⟨start, before, middle, hstart, hbefore, hmiddle, rfl⟩
    apply h.cons
    intro body hbody
    apply Task.Writes.leaf rfl
    intro s output
    refine ⟨_, _, rfl, start ++ (library.writer.string key ++ (before ++ ':' :: (middle ++
      (body ++ (formatter.endObjectValue s).2)))), by simp, ?_⟩
    exact memberText hlibrary hbody hstart hbefore hmiddle (hformatter.endObjectValue s)

theorem writes_members {members : List (String × Node)}
    (h : ∀ member ∈ members,
      Task.Writes library formatter [.node member.2] (Reads library input member.2)) :
    Task.Writes library formatter (members.map fun member => .member member.1 member.2 false)
      (ReadsMembers library input members) := by
  induction members with
  | nil => exact Task.Writes.nil readsMembers_nil
  | cons member members ih =>
    rw [List.forall_mem_cons] at h
    apply (writes_member hlibrary hformatter false h.1).cons
    rintro _ ⟨body, rfl, hbody⟩
    apply (ih h.2).mono
    intro rest hrest
    exact hrest.cons hbody

theorem writes_object {members : List (String × Node)} (hkeys : (members.map Prod.fst).Nodup)
    (h : ∀ member ∈ members,
      Task.Writes library formatter [.node member.2] (Reads library input member.2)) :
    Task.Writes library formatter [.node (.object members)]
      (Reads library input (.object members)) := by
  have hclose : Task.Writes library formatter [.endObject] fun text =>
      ∃ close, Blank close ∧ text = close ++ ['\x7d'] := by
    apply Task.Writes.leaf rfl
    intro s output
    exact ⟨_, _, rfl, hformatter.endObject s⟩
  apply Task.Writes.task (P := fun text => text = ['\x7b'])
  · intro s output
    exact ⟨_, _, rfl, hformatter.beginObject s⟩
  · rintro _ rfl
    cases members with
    | nil =>
      apply hclose.mono
      rintro _ ⟨close, hblank, rfl⟩
      exact reads_emptyObject hblank
    | cons member members =>
      rw [List.forall_mem_cons] at h
      rw [Task.pending, mapIdx_first (fun (member : String × Node) first => .member member.1 member.2 first),
        List.cons_append]
      apply (writes_member hlibrary hformatter true h.1).cons
      rintro _ ⟨body, rfl, hbody⟩
      apply (writes_members hlibrary hformatter h.2).append
      intro items hitems
      apply hclose.mono
      rintro _ ⟨close, hblank, rfl⟩
      have hread := reads_object hkeys hbody hitems hblank
      simpa using hread

/-- Whatever the formatter, the text that is written of a tree is read as the tree. -/
theorem writes_node (input : List Char) {root : Node} (h : root.Readable library.reader) :
    Task.Writes library formatter [.node root] (Reads library input root) := by
  induction h with
  | null =>
    apply Task.Writes.leaf rfl
    intro s output
    exact ⟨s, _, rfl, by rw [hlibrary.null]; exact reads_null⟩
  | bool value =>
    apply Task.Writes.leaf rfl
    intro s output
    exact ⟨s, _, rfl, by rw [hlibrary.bool]; exact reads_bool value⟩
  | number hnumber =>
    apply Task.Writes.leaf rfl
    intro s output
    exact ⟨s, _, rfl, by rw [hlibrary.number]; exact reads_number hnumber⟩
  | string value =>
    apply Task.Writes.leaf rfl
    intro s output
    exact ⟨s, _, rfl, reads_string hlibrary value⟩
  | array _ ih => exact writes_array hlibrary hformatter ih
  | object hkeys _ ih => exact writes_object hlibrary hformatter hkeys ih

end Writes

section RoundTrip

theorem blank_spaces (n : Nat) : Blank (List.replicate n ' ') := by
  intro c hc
  rw [List.eq_of_mem_replicate hc]
  rfl

theorem blank_newline (spaces : Nat) : Blank (writeNewline spaces) := by
  rw [writeNewline, Blank, List.forall_mem_cons]
  exact ⟨rfl, blank_spaces _⟩

theorem blank_nil : Blank [] := by
  rintro _ ⟨⟩

theorem PrettyState.closed_blank (s : PrettyState) (mark : Char) :
    ∃ blank, Blank blank ∧ (s.closed mark).2 = blank ++ [mark] := by
  refine ⟨_, ?_, rfl⟩
  split
  · exact blank_newline _
  · exact blank_nil

theorem cappedPretty_lawful : cappedPretty.Lawful where
  beginArray _ := rfl
  endArray s := s.closed_blank ']'
  beginArrayValue _ _ := ⟨_, blank_newline _, rfl⟩
  endArrayValue _ := blank_nil
  beginObject _ := rfl
  endObject s := s.closed_blank '\x7d'
  beginObjectKey _ _ := ⟨_, blank_newline _, rfl⟩
  endObjectKey _ := blank_nil
  beginObjectValue _ := ⟨[], [' '], blank_nil, blank_spaces 1, rfl⟩
  endObjectValue _ := blank_nil

/-- A text that is read as a value is parsed as the value. -/
theorem parse_of_reads {library : Serializer} {root : Node} {text : List Char}
    (h : Reads library text root text) : parse library.reader text = .ok root := by
  have hattach : Parse.attach root [] none = .ok ⟨[], some root, .finished⟩ := rfl
  have hrun := h.run hattach (Blank.stops blank_nil)
  rw [List.append_nil] at hrun
  rw [parse, hrun, Parse.run_finished blank_nil]
  rfl

theorem parse_written {library : Serializer} {F : Type} {formatter : Formatter F}
    (hlibrary : library.Faithful) (hformatter : formatter.Lawful) {root : Node}
    (h : root.Readable library.reader) (s : F) :
    ∃ s' text, (writeNode formatter library.writer).run [.node root] (s, []) = some (s', text) ∧
      parse library.reader text = .ok root := by
  obtain ⟨s', text, hrun, -⟩ := writes_node hlibrary hformatter [] h s []
  obtain ⟨s'', text', hrun', hreads⟩ := writes_node hlibrary hformatter text h s []
  -- what is written does not depend on the text the parser reports its errors in
  obtain ⟨rfl, rfl⟩ : s' = s'' ∧ text = text' := by simpa [hrun] using hrun'
  exact ⟨s', text, hrun, parse_of_reads hreads⟩

/-- The text of a tree, compact or pretty, is parsed as the tree. -/
theorem parse_toString {library : Serializer} (hlibrary : library.Faithful) {root : Node}
    (h : root.Readable library.reader) (pretty : Bool) :
    ∃ text, toString library root pretty = some text ∧ parse library.reader text = .ok root := by
  cases pretty with
  | false =>
    obtain ⟨s, text, hrun, hparse⟩ := parse_written hlibrary hlibrary.compact h ()
    exact ⟨text, by rw [toString, if_neg (by simp), hrun]; rfl, hparse⟩
  | true =>
    obtain ⟨s, text, hrun, hparse⟩ := parse_written hlibrary cappedPretty_lawful h ⟨0, false⟩
    exact ⟨text, by rw [toString, if_pos rfl, hrun]; rfl, hparse⟩

end RoundTrip

end KRust.Json
