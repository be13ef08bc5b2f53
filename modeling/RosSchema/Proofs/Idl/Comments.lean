import RosSchema.Proofs.Idl.DocumentEnd

/-!
# Comments at the joints of a text

What is left of a text without comments depends on what stands around it only through the context at its
start. `endContext` is the context at its end, so that the parts of a text can be stripped one after the
other, as long as no pair of characters counts across the joint.
-/

namespace RosSchema.Idl

def endContext : Context → List Char → Context
  | context, [] => context
  | .code, '/' :: '/' :: rest => endContext .lineComment rest
  | .code, '/' :: '*' :: rest => endContext .blockComment rest
  | .code, '"' :: rest => endContext .string rest
  | .code, _ :: rest => endContext .code rest
  | .string, '\\' :: _ :: rest => endContext .string rest
  | .string, '"' :: rest => endContext .code rest
  | .string, _ :: rest => endContext .string rest
  | .lineComment, '\n' :: rest => endContext .code rest
  | .lineComment, _ :: rest => endContext .lineComment rest
  | .blockComment, '*' :: '/' :: rest => endContext .code rest
  | .blockComment, _ :: rest => endContext .blockComment rest

/-- The context after a character is the one before it, and the character counts alone. -/
def Stays : Context → Char → List Char → Prop
  | .code, c, rest => c ≠ '"' ∧ (c = '/' → rest.head? ≠ some '/' ∧ rest.head? ≠ some '*')
  | .string, c, rest => c ≠ '"' ∧ (c = '\\' → rest = [])
  | .lineComment, c, _ => c ≠ '\n'
  | .blockComment, c, rest => c = '*' → rest.head? ≠ some '/'

def kept : Context → Char → List Char
  | .code, c | .string, c => [c]
  | .lineComment, _ | .blockComment, _ => []

theorem strip_cons {context : Context} {c : Char} {rest : List Char} (h : Stays context c rest) :
    strip context (c :: rest) = kept context c ++ strip context rest := by
  rw [strip.eq_def]
  split <;> simp_all [Stays, kept]

theorem endContext_cons {context : Context} {c : Char} {rest : List Char} (h : Stays context c rest) :
    endContext context (c :: rest) = endContext context rest := by
  rw [endContext.eq_def]
  split <;> simp_all [Stays]

/-- Induction along a text, with a case for each way in which its context changes. -/
@[elab_as_elim]
theorem context_induction {motive : Context → List Char → Prop}
    (nil : ∀ context, motive context [])
    (lineStart : ∀ rest, motive .lineComment rest → motive .code ('/' :: '/' :: rest))
    (lineEnd : ∀ rest, motive .code rest → motive .lineComment ('\n' :: rest))
    (blockStart : ∀ rest, motive .blockComment rest → motive .code ('/' :: '*' :: rest))
    (blockEnd : ∀ rest, motive .code rest → motive .blockComment ('*' :: '/' :: rest))
    (stringStart : ∀ rest, motive .string rest → motive .code ('"' :: rest))
    (stringEnd : ∀ rest, motive .code rest → motive .string ('"' :: rest))
    (escape : ∀ c rest, motive .string rest → motive .string ('\\' :: c :: rest))
    (stays : ∀ context c rest, Stays context c rest → motive context rest → motive context (c :: rest))
    (context : Context) (cs : List Char) : motive context cs := by
  fun_induction endContext context cs with
  | case1 context => exact nil context
  | case2 rest ih => exact lineStart rest ih
  | case3 rest ih => exact blockStart rest ih
  | case4 rest ih => exact stringStart rest ih
  | case5 c rest hline hblock hquote ih =>
    refine stays .code c rest ⟨hquote, fun hc => ⟨fun hhead => ?_, fun hhead => ?_⟩⟩ ih
    · obtain ⟨rest', hrest⟩ := List.head?_eq_some_iff.1 hhead
      exact hline rest' hc hrest
    · obtain ⟨rest', hrest⟩ := List.head?_eq_some_iff.1 hhead
      exact hblock rest' hc hrest
  | case6 c rest ih => exact escape c rest ih
  | case7 rest ih => exact stringEnd rest ih
  | case8 c rest hescape hquote ih =>
    refine stays .string c rest ⟨hquote, fun hc => ?_⟩ ih
    cases rest with
    | nil => rfl
    | cons d rest => exact (hescape d rest hc rfl).elim
  | case9 rest ih => exact lineEnd rest ih
  | case10 c rest hend ih => exact stays .lineComment c rest hend ih
  | case11 rest ih => exact blockEnd rest ih
  | case12 c rest hend ih =>
    refine stays .blockComment c rest (fun hc hhead => ?_) ih
    obtain ⟨rest', hrest⟩ := List.head?_eq_some_iff.1 hhead
    exact hend rest' hc hrest

/-! ## Joints -/

/-- A text whose first character counts alone, whatever stands before it. -/
def StartsAlone (cs : List Char) : Prop := ∀ c ∈ cs.head?, c ≠ '/' ∧ c ≠ '*' ∧ c ≠ '"' ∧ c ≠ '\\'

theorem startsAlone_newline (cs : List Char) : StartsAlone ('\n' :: cs) := by
  simp [StartsAlone]

/-- Before a text that starts alone a character counts alone if it is the last one, or an escape is
cut off. -/
theorem Stays.append {context : Context} {c : Char} {rest back : List Char} (h : Stays context c rest)
    (hback : StartsAlone back) : Stays context c (rest ++ back) ∨ c = '\\' ∧ context = .string ∧ rest = [] := by
  have hhead : ∀ d, rest.head? ≠ some d → d = '/' ∨ d = '*' → (rest ++ back).head? ≠ some d := by
    intro d hd hslash
    cases rest with
    | nil =>
      intro hd'
      have := hback d hd'
      simp_all
    | cons e rest => exact hd
  cases context with
  | code => exact .inl ⟨h.1, fun hc => ⟨hhead _ (h.2 hc).1 (.inl rfl), hhead _ (h.2 hc).2 (.inr rfl)⟩⟩
  | string =>
    by_cases hc : c = '\\'
    · exact .inr ⟨hc, rfl, h.2 hc⟩
    · exact .inl ⟨h.1, fun hc' => absurd hc' hc⟩
  | lineComment => exact .inl h
  | blockComment => exact .inl fun hc => hhead _ (h hc) (.inl rfl)

section Append

variable {back : List Char} (hback : StartsAlone back) (context : Context) (front : List Char)
include hback

/-- A text is stripped one part after the other. -/
theorem strip_append :
    strip context (front ++ back) = strip context front ++ strip (endContext context front) back := by
  induction context, front using context_induction with
  | nil context => simp [strip, endContext]
  | stays context c rest h ih =>
    rcases h.append hback with hstays | ⟨rfl, rfl, rfl⟩
    · rw [List.cons_append, strip_cons hstays, strip_cons h, endContext_cons h, ih, List.append_assoc]
    · cases back with
      | nil => simp [strip]
      | cons d back =>
        have hd := hback d rfl
        have hstays : Stays .string d back := ⟨hd.2.2.1, fun he => absurd he hd.2.2.2⟩
        rw [strip_cons h, endContext_cons h, endContext, strip_cons hstays]
        rfl
  | _ => simp_all [strip, endContext]

theorem endContext_append :
    endContext context (front ++ back) = endContext (endContext context front) back := by
  induction context, front using context_induction with
  | nil context => simp [endContext]
  | stays context c rest h ih =>
    rcases h.append hback with hstays | ⟨rfl, rfl, rfl⟩
    · rw [List.cons_append, endContext_cons hstays, endContext_cons h, ih]
    · cases back with
      | nil => simp [endContext]
      | cons d back =>
        have hd := hback d rfl
        have hstays : Stays .string d back := ⟨hd.2.2.1, fun he => absurd he hd.2.2.2⟩
        rw [endContext_cons h, endContext, endContext_cons hstays]
        rfl
  | _ => simp_all [endContext]

end Append

/-! ## Texts without comments -/

/-- Text that opens neither a comment nor a string stays as it is, and so does the context after it. -/
theorem strip_plain_append {plain : List Char} (h : ∀ c ∈ plain, c ≠ '/' ∧ c ≠ '"') (rest : List Char) :
    strip .code (plain ++ rest) = plain ++ strip .code rest ∧
      endContext .code (plain ++ rest) = endContext .code rest := by
  induction plain with
  | nil => exact ⟨rfl, rfl⟩
  | cons c plain ih =>
    obtain ⟨⟨hslash, hquote⟩, hplain⟩ := List.forall_mem_cons.1 h
    have hstays : Stays .code c (plain ++ rest) := ⟨hquote, fun hc => absurd hc hslash⟩
    rw [List.cons_append, strip_cons hstays, endContext_cons hstays, (ih hplain).1, (ih hplain).2]
    exact ⟨rfl, rfl⟩

/-- Nothing but the space of a comment is left that was not in the text. -/
theorem mem_of_mem_strip {context : Context} {cs : List Char} {d : Char} (h : d ∈ strip context cs) :
    d ∈ cs ∨ d = ' ' := by
  induction context, cs using context_induction with
  | nil context => simp [strip] at h
  | stays context c rest hstays ih =>
    rw [strip_cons hstays, List.mem_append] at h
    rcases h with h | h
    · have hkept : d = c := by cases context <;> simp_all [kept]
      exact .inl (hkept ▸ List.mem_cons_self)
    · exact (ih h).imp_left (List.mem_cons_of_mem c)
  | _ => simp_all [strip]; tauto

/-- The gaps at the end of a text leave gaps. -/
theorem endsAlike_strip (context : Context) (cs : List Char) {gaps gaps' : List Char}
    (h : ∀ c ∈ gaps, isGap c = true) (h' : ∀ c ∈ gaps', isGap c = true) :
    EndsAlike (strip context (cs ++ gaps)) (strip context (cs ++ gaps')) := by
  have halone {gaps : List Char} (h : ∀ c ∈ gaps, isGap c = true) : StartsAlone gaps := by
    intro c hc
    have hgap := h c (List.mem_of_mem_head? hc)
    refine ⟨?_, ?_, ?_, ?_⟩ <;> rintro rfl <;> exact absurd hgap (by decide)
  have hleft {gaps : List Char} (h : ∀ c ∈ gaps, isGap c = true) (context : Context) :
      ∀ c ∈ strip context gaps, isGap c = true := by
    intro c hc
    rcases mem_of_mem_strip hc with hc | rfl
    · exact h c hc
    · rfl
  rw [strip_append (halone h), strip_append (halone h')]
  exact (EndsAlike.gaps (hleft h _) (hleft h' _)).append_left _

/-- A line that ends in code keeps its line break, and the next one starts in code. -/
theorem strip_line {context : Context} {cs : List Char} (h : endContext context (cs ++ ['\n']) = .code)
    (rest : List Char) : strip context (cs ++ '\n' :: rest) = strip context cs ++ '\n' :: strip .code rest := by
  rw [endContext_append (startsAlone_newline [])] at h
  rw [strip_append (startsAlone_newline rest)]
  cases hend : endContext context cs with
  | code =>
    have hstays : Stays .code '\n' rest := by simp [Stays]
    rw [strip_cons hstays]
    rfl
  | lineComment => rw [strip]
  | string => simp [hend, endContext] at h
  | blockComment => simp [hend, endContext] at h

/-! ## Stripping twice -/

/-- The context of the text that is left of another one. -/
def Context.left : Context → Context
  | .string => .string
  | _ => .code

theorem head?_strip_code {cs : List Char} (h : cs.head? ≠ some '/') : (strip .code cs).head? = cs.head? := by
  cases cs with
  | nil => rw [strip]
  | cons c cs =>
    have hc : c ≠ '/' := fun hc => h (hc ▸ rfl)
    by_cases hquote : c = '"'
    · subst hquote
      rw [strip]
      rfl
    · have hstays : Stays .code c cs := ⟨hquote, fun he => absurd he hc⟩
      rw [strip_cons hstays]
      rfl

/-- No comments are left, and taking them out joins no others. -/
theorem strip_strip (context : Context) (cs : List Char) :
    strip context.left (strip context cs) = strip context cs := by
  induction context, cs using context_induction with
  | nil context => simp [strip]
  | stays context c rest h ih =>
    rw [strip_cons h]
    cases context with
    | lineComment => exact ih
    | blockComment => exact ih
    | string =>
      have hstays : Stays .string c (strip .string rest) :=
        ⟨h.1, fun hc => by rw [h.2 hc, strip]⟩
      exact (strip_cons hstays).trans (congrArg (c :: ·) ih)
    | code =>
      have hstays : Stays .code c (strip .code rest) := by
        refine ⟨h.1, fun hc => ?_⟩
        rw [head?_strip_code (h.2 hc).1]
        exact h.2 hc
      exact (strip_cons hstays).trans (congrArg (c :: ·) ih)
  | _ => simp_all [strip, Context.left]

end RosSchema.Idl
