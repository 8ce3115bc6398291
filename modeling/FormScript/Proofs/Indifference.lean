import FormScript.Proofs.Joining
import FormScript.Proofs.Regular
import FormScript.Proofs.Refusal
import FormScript.Proofs.ScriptTree

/-!
# What preferences do not change

Of all preferences three reach the compiler: whether operators are listed, whether the prelude is
put in front of a script, and whether comments are written. None of them decides whether a source
has a script. Two scans that differ in the list of operators only are carried through the scanner
side by side (`Scan.outcome_run`), and so are two runs of the writer (`Script.Follows`).

The writer is compared with itself in two ways, told apart by a flag. With comments left in the tree
(`true`) the two runs have the same state at every step and fail alike, and only their texts differ.
With comments taken out of the tree (`false`) and a first run that skips them, the texts are equal,
but the numbers of statements are not, and the states agree only in what the text depends on.
-/

namespace FormScript

open Script (bodyOf)

/-! ## Scanning -/

/-- A tally without the list of operators. -/
def Tally.withoutUse (t : Tally) : Tally := { t with operatorUse := [] }

theorem Tally.withoutUse_addToken {t t' : Tally} (h : t.withoutUse = t'.withoutUse)
    (track track' : Bool) (token : Token) :
    (t.addToken track token).withoutUse = (t'.addToken track' token).withoutUse := by
  have hkind : (t.addKind track token).withoutUse = (t'.addKind track' token).withoutUse := by
    simp only [withoutUse, Tally.mk.injEq] at h
    unfold addKind
    split <;> simp [withoutUse, h]
  simp only [withoutUse, Tally.mk.injEq] at hkind
  simp [addToken, withoutUse, hkind]

namespace Scan

/-- A scan without the list of operators. -/
def untracked (s : Scan) : Scan := { s with tally := s.tally.withoutUse }

/-- What came of a scan, the list of operators apart. -/
def outcome : Except (LexError × Scan) Scan → Except LexError Scan
  | .ok s => .ok s.untracked
  | .error (e, _) => .error e

variable {s s' : Scan} {track track' : Bool}

theorem outcome_bind {r r' : Except (LexError × Scan) Scan}
    {f f' : Scan → Except (LexError × Scan) Scan} (h : outcome r = outcome r')
    (hf : ∀ s s', s.untracked = s'.untracked → outcome (f s) = outcome (f' s')) :
    outcome (r.bind f) = outcome (r'.bind f') := by
  cases r with
  | error e =>
    cases r' with
    | error e' => exact h
    | ok s' => cases h
  | ok s =>
    cases r' with
    | error e' => cases h
    | ok s' => exact hf s s' (Except.ok.inj h)

theorem outcome_push (h : s.untracked = s'.untracked) (t : Token) :
    outcome (s.push track t) = outcome (s'.push track' t) := by
  obtain ⟨cursor, tokens, pending, switches, tally, notes⟩ := s
  obtain ⟨cursor', tokens', pending', switches', tally', notes'⟩ := s'
  simp only [untracked, Scan.mk.injEq] at h
  obtain ⟨rfl, rfl, rfl, rfl, htally, rfl⟩ := h
  unfold push
  split
  · rfl
  · have := Tally.withoutUse_addToken htally track track'
      { t with ascription := pending.map Prod.fst }
    simpa [outcome, untracked] using this

theorem outcome_foldlM_push (h : s.untracked = s'.untracked) (ts : List Token) :
    outcome (ts.foldlM (push track) s) = outcome (ts.foldlM (push track') s') := by
  induction ts generalizing s s' with
  | nil => exact congrArg Except.ok h
  | cons t ts ih =>
    rw [List.foldlM_cons, List.foldlM_cons]
    exact outcome_bind (outcome_push h t) fun _ _ h => ih h

theorem untracked_observe (s : Scan) (l : Lexeme) :
    (s.observe l).untracked = s.untracked.observe l := by
  cases l <;> rfl

theorem outcome_accept (h : s.untracked = s'.untracked) (l : Lexeme) :
    outcome (s.accept track l) = outcome (s'.accept track' l) := by
  have hcursor : s.cursor = s'.cursor := by
    change s.untracked.cursor = s'.untracked.cursor
    rw [h]
  have hobserve : (s.observe l).untracked = (s'.observe l).untracked := by
    rw [untracked_observe, untracked_observe, h]
  unfold accept
  dsimp only
  rw [observe_cursor, observe_cursor, hcursor]
  refine outcome_foldlM_push ?_ _
  simp only [untracked, Scan.mk.injEq] at hobserve ⊢
  exact ⟨trivial, hobserve.2⟩

theorem outcome_run {s s' : Scan} (h : s.untracked = s'.untracked) (cs : List Char) :
    outcome (s.run track cs) = outcome (s'.run track' cs) := by
  match cs with
  | [] =>
    rw [run, run]
    exact congrArg Except.ok h
  | c :: cs =>
    cases hread : Lexeme.read c cs with
    | error f =>
      have hcursor : s.untracked.cursor = s'.untracked.cursor := by rw [h]
      rw [run_cons_error s hread, run_cons_error s' hread]
      exact congrArg (fun k : Cursor => Except.error (f.errorAt k.position (c :: cs))) hcursor
    | ok r =>
      obtain ⟨l, rest⟩ := r
      rw [run_cons_ok s hread, run_cons_ok s' hread]
      exact outcome_bind (outcome_accept h l) fun _ _ h => outcome_run h rest
termination_by cs.length
decreasing_by exact Lexeme.read_length hread

theorem outcome_finish (h : s.untracked = s'.untracked) :
    outcome (s.finish track) = outcome (s'.finish track') := by
  have hclose : ∀ s s' : Scan, s.untracked = s'.untracked →
      outcome (.ok { s with
        tokens := s.tokens.push (.closing (.point s.cursor.position))
        tally := { s.tally with lines := s.cursor.lineStarts.size } })
      = outcome (.ok { s' with
        tokens := s'.tokens.push (.closing (.point s'.cursor.position))
        tally := { s'.tally with lines := s'.cursor.lineStarts.size } }) := by
    intro s s' h
    simp only [untracked, Tally.withoutUse, Scan.mk.injEq, Tally.mk.injEq] at h
    simp [outcome, untracked, Tally.withoutUse, h]
  have hpending : s.pending = s'.pending := by
    change s.untracked.pending = s'.untracked.pending
    rw [h]
  unfold finish
  rw [hpending]
  cases s'.pending with
  | none => exact hclose s s' h
  | some w =>
    -- An annotation still waits for a token, and becomes one before the end is marked.
    refine outcome_bind (outcome_push ?_ _) hclose
    simp only [untracked, Scan.mk.injEq] at h ⊢
    exact ⟨h.1, h.2.1, trivial, h.2.2.2⟩

/-- **Listing the operators changes nothing else of a scan**, be it what is scanned or the error. -/
theorem outcome_ofSource (source : List Char) (track track' : Bool) :
    outcome (ofSource source track) = outcome (ofSource source track') := by
  unfold ofSource
  split
  · rfl
  · exact outcome_bind (outcome_run rfl source) fun _ _ h => outcome_finish h

end Scan

/-! ## Comments in trees -/

namespace Node

/-- The tree with its comments, or with an empty block for each one that stands as a statement. -/
def withDocs (docs : Bool) (role : Role) : Node → Node
  | str m value => str m value
  | num m value text => num m value text
  | ident m name => ident m name
  | type m name => type m name
  | doc m a => if docs = false ∧ role = .statement then block m [] else doc m a
  | increment m a => increment m a
  | params m ps => params m ps
  | param m a => param m a
  | program m forms => program m (forms.map (withDocs docs .statement))
  | declare m a b => declare m a (b.withDocs docs .expression)
  | assign m a b => assign m a (b.withDocs docs .expression)
  | doWhile m a b => doWhile m (a.withDocs docs .statement) (b.withDocs docs .expression)
  | unary m op a => unary m op (a.withDocs docs .expression)
  | binary m op a b => binary m op (a.withDocs docs .expression) (b.withDocs docs .expression)
  | function m a body => function m a (body.map (withDocs docs .statement))
  | result m a => result m (a.withDocs docs .expression)
  | forLess m a b c body =>
    forLess m a (b.withDocs docs .expression) (c.withDocs docs .expression)
      (body.map (withDocs docs .statement))
  | cast m a b => cast m (a.withDocs docs .expression) b
  | call m a args => call m (a.withDocs docs .expression) (args.map (withDocs docs .expression))
  | block m body => block m (body.map (withDocs docs .statement))
  | branch m a b none => branch m (a.withDocs docs .expression) (b.withDocs docs role) none
  | branch m a b (some c) =>
    branch m (a.withDocs docs .expression) (b.withDocs docs role) (some (c.withDocs docs role))
  | choice m a b c =>
    choice m (a.withDocs docs .expression) (b.withDocs docs .expression)
      (c.withDocs docs .expression)
  | member m a b => member m (a.withDocs docs .expression) b

/-- With its comments, a tree is as it was. -/
theorem withDocs_true (role : Role) (n : Node) : n.withDocs true role = n := by
  induction n using induct generalizing role with
  | step n ih =>
    have hlist : ∀ role (ns : List Node), (∀ c ∈ ns, c ∈ n.children) →
        ns.map (withDocs true role) = ns := by
      intro role ns hns
      rw [List.map_congr_left fun c hc => ih c (hns c hc) role, List.map_id']
    cases n with
    | branch m a b no =>
      cases no with
      | none =>
        rw [withDocs, ih a (by simp [children]), ih b (by simp [children])]
      | some c =>
        rw [withDocs, ih a (by simp [children]), ih b (by simp [children]),
          ih c (by simp [children])]
    | program m ns | block m ns =>
      rw [withDocs, hlist _ ns fun c hc => hc]
    | function m a ns =>
      rw [withDocs, hlist _ _ fun c hc => by simp [children, hc]]
    | call m a ns =>
      rw [withDocs, ih a (by simp [children]), hlist _ _ fun c hc => by simp [children, hc]]
    | forLess m a b c ns =>
      rw [withDocs, ih b (by simp [children]), ih c (by simp [children]),
        hlist _ _ fun c hc => by simp [children, hc]]
    | declare m a b | assign m a b => rw [withDocs, ih b (by simp [children])]
    | result m a | unary m op a | cast m a b | member m a b =>
      rw [withDocs, ih a (by simp [children])]
    | doWhile m a b | binary m op a b =>
      rw [withDocs, ih a (by simp [children]), ih b (by simp [children])]
    | choice m a b c =>
      rw [withDocs, ih a (by simp [children]), ih b (by simp [children]),
        ih c (by simp [children])]
    | doc m a => rw [withDocs, if_neg nofun]
    | str | num | ident | type | increment | params | param => rw [withDocs]

end Node

/-! ## Writing -/

namespace Script

variable {α β γ δ : Type} {docs : Bool}

/-- States that cannot be told apart by what is written next; with the same tree, equal states. -/
structure Alike (docs : Bool) (s t : Emitting) : Prop where
  scopes : s.scopes = t.scopes
  indent : s.indent = t.indent
  same : docs = true → s = t

/-- Equal, unless only one of the two trees is written with its comments. -/
def SameText (docs : Bool) (a b : α) : Prop := docs = false → a = b

/-- A second step succeeds where a first one does, with a value that is related to its value. With
the same tree it also fails where the first one does, and in the same way. -/
def Follows (docs : Bool) (R : α → β → Prop) (p : Emit α) (q : Emit β) : Prop :=
  ∀ s t, Alike docs s t →
    match p s with
    | .ok a s' => ∃ b t', q t = .ok b t' ∧ R a b ∧ Alike docs s' t'
    | .error e s' => docs = true → q t = .error e s'

theorem Alike.update {s t : Emitting} (h : Alike docs s t) {f : Emitting → Emitting}
    (hf : (f s).scopes = (f t).scopes ∧ (f s).indent = (f t).indent) : Alike docs (f s) (f t) :=
  ⟨hf.1, hf.2, fun hdocs => by rw [h.same hdocs]⟩

theorem Follows.bind {R : α → β → Prop} {R' : γ → δ → Prop} {p : Emit α} {q : Emit β}
    {f : α → Emit γ} {g : β → Emit δ} (hp : Follows docs R p q)
    (hf : ∀ a b, R a b → Follows docs R' (f a) (g b)) :
    Follows docs R' (p >>= f) (q >>= g) := by
  intro s t hst
  have h := hp s t hst
  change match EStateM.bind p f s with
    | .ok a s' => ∃ b t', EStateM.bind q g t = .ok b t' ∧ R' a b ∧ Alike docs s' t'
    | .error e s' => docs = true → EStateM.bind q g t = .error e s'
  unfold EStateM.bind
  split at h
  · rename_i a s' hp
    obtain ⟨b, t', hq, hab, halike⟩ := h
    rw [hp, hq]
    exact hf a b hab s' t' halike
  · rename_i hp
    rw [hp]
    intro hdocs
    rw [h hdocs]

theorem follows_pure {R : α → β → Prop} {a : α} {b : β} (h : R a b) :
    Follows docs R (pure a) (pure b) :=
  fun _ t hst => ⟨b, t, rfl, h, hst⟩

theorem follows_fail {R : α → β → Prop} {cause cause' : EmitCause} {span span' : Span}
    (h : docs = true → cause = cause' ∧ span = span') :
    Follows docs R (fail cause span) (fail cause' span') := by
  intro s t hst hdocs
  obtain ⟨rfl, rfl⟩ := h hdocs
  rw [hst.same hdocs]
  rfl

theorem follows_line {text text' : String} (h : SameText docs text text') :
    Follows docs (SameText docs) (line text) (line text') :=
  fun _ t hst => ⟨_, t, rfl, fun hdocs => by rw [h hdocs, hst.indent], hst⟩

theorem Follows.nested {R : α → β → Prop} {p : Emit α} {q : Emit β} (h : Follows docs R p q) :
    Follows docs R (nested p) (nested q) := by
  intro s t hst
  have hinner := h _ _ (hst.update (f := fun s => { s with
    depth := s.depth + 1
    tally := { s.tally with deepest := max s.tally.deepest (s.depth + 1) } })
    ⟨hst.scopes, hst.indent⟩)
  unfold Script.nested
  dsimp only
  split at hinner
  · rename_i a s' hp
    obtain ⟨b, t', hq, hab, halike⟩ := hinner
    rw [hp, hq]
    refine ⟨b, _, rfl, hab, ?_⟩
    exact halike.update (f := fun s => { s with depth := s.depth - 1 })
      ⟨halike.scopes, halike.indent⟩
  · rename_i hp
    rw [hp]
    intro hdocs
    rw [hinner hdocs]

theorem Follows.inScope {p q : Emit String} (h : Follows docs (SameText docs) p q)
    (isFunction : Bool) (bound : List String) :
    Follows docs (SameText docs) (inScope isFunction bound p) (inScope isFunction bound q) := by
  intro s t hst
  have hinner := h _ _ (hst.update (f := fun s => { s with
    scopes := bound.foldl Scope.declare { isFunction } :: s.scopes
    indent := s.indent + 1 }) (by simp [hst.scopes, hst.indent]))
  unfold Script.inScope
  dsimp only
  split at hinner
  · rename_i out s' hp
    obtain ⟨out', t', hq, hout, halike⟩ := hinner
    rw [hp, hq]
    refine ⟨_, _, rfl, fun hdocs => ?_, ?_⟩
    · rw [hout hdocs, halike.scopes, halike.indent]
    · exact halike.update (f := fun s => { s with
        scopes := s.scopes.tail
        indent := s.indent - 1 }) (by simp [halike.scopes, halike.indent])
  · rename_i hp
    rw [hp]
    intro hdocs
    rw [hinner hdocs]

theorem follows_bindingName (n : Node) : Follows docs Eq (bindingName n) (bindingName n) := by
  unfold bindingName
  split
  · exact follows_pure rfl
  · exact follows_fail fun _ => ⟨rfl, rfl⟩

theorem follows_paramNames (ns : List Node) : Follows docs Eq (paramNames ns) (paramNames ns) := by
  fun_induction paramNames ns with
  | case1 => exact follows_pure rfl
  | case2 m name rest ih =>
    refine (follows_bindingName name).bind fun first _ hfirst => ?_
    refine ih.bind fun others _ hothers => follows_pure ?_
    rw [hfirst, hothers]
  | case3 => exact follows_fail fun _ => ⟨rfl, rfl⟩

theorem follows_identifier (name : String) :
    Follows docs (SameText docs) (identifier name) (identifier name) := by
  intro s t hst
  have hbound : s.isBound name = t.isBound name := by simp only [Emitting.isBound, hst.scopes]
  exact ⟨_, t, rfl, fun _ => by rw [hbound], hst⟩

theorem Alike.declare {s t : Emitting} (h : Alike docs s t) (name : String) :
    Alike docs (s.declare name).countBinding (t.declare name).countBinding := by
  refine h.update (f := fun s => (s.declare name).countBinding) ?_
  simp only [Emitting.declare, Emitting.countBinding, h.scopes]
  cases t.scopes <;> simp [h.indent, h.scopes]

theorem Alike.hoist {s t : Emitting} (h : Alike docs s t) (name : String) :
    Alike docs (s.hoist name).countBinding (t.hoist name).countBinding :=
  h.update (f := fun s => (s.hoist name).countBinding)
    (by simp [Emitting.hoist, Emitting.countBinding, h.scopes, h.indent])

theorem Alike.countRebinding {s t : Emitting} (h : Alike docs s t) :
    Alike docs s.countRebinding t.countRebinding :=
  h.update ⟨h.scopes, h.indent⟩

theorem follows_declaration (name : String) {value value' : String}
    (h : SameText docs value value') :
    Follows docs (SameText docs) (declaration name value) (declaration name value') := by
  intro s t hst
  have hhere : s.isDeclaredHere name = t.isDeclaredHere name := by
    simp only [Emitting.isDeclaredHere, hst.scopes]
  unfold declaration
  rw [hhere]
  cases t.isDeclaredHere name with
  | true =>
    refine follows_line ?_ _ _ hst.countRebinding
    exact fun hdocs => by rw [h hdocs]
  | false =>
    refine follows_line ?_ _ _ (hst.declare name)
    exact fun hdocs => by rw [h hdocs]

theorem follows_assignment (name : String) {value value' : String}
    (h : SameText docs value value') :
    Follows docs (SameText docs) (assignment name value) (assignment name value') := by
  intro s t hst
  have hbound : s.isBound name = t.isBound name := by simp only [Emitting.isBound, hst.scopes]
  have hfunction : s.inFunctionScope = t.inFunctionScope := by
    simp only [Emitting.inFunctionScope, hst.scopes]
  unfold assignment
  rw [hbound, hfunction]
  cases t.isBound name with
  | true =>
    refine follows_line ?_ _ _ hst.countRebinding
    exact fun hdocs => by rw [h hdocs]
  | false =>
    cases t.inFunctionScope with
    | true =>
      refine follows_line ?_ _ _ (hst.declare name)
      exact fun hdocs => by rw [h hdocs]
    | false =>
      refine follows_line ?_ _ _ (hst.hoist name)
      exact fun hdocs => by rw [h hdocs]

section Lists

variable {write write' : Node → Emit String} {f : Node → Node} {ns : List Node}

theorem follows_sequence
    (h : ∀ n ∈ ns, Follows docs (SameText docs) (write n) (write' (f n))) {out out' : String}
    (hout : SameText docs out out') :
    Follows docs (SameText docs) (sequence write ns out) (sequence write' (ns.map f) out') := by
  induction ns generalizing out out' with
  | nil => exact follows_pure hout
  | cons n ns ih =>
    refine (h n List.mem_cons_self).bind fun text text' htext => ?_
    refine ih (fun m hm => h m (List.mem_cons_of_mem _ hm)) fun hdocs => ?_
    rw [hout hdocs, htext hdocs]

theorem follows_each
    (h : ∀ n ∈ ns, Follows docs (SameText docs) (write n) (write' (f n)))
    {done done' : List String} (hdone : SameText docs done done') :
    Follows docs (SameText docs) (each write ns done) (each write' (ns.map f) done') := by
  induction ns generalizing done done' with
  | nil => exact follows_pure fun hdocs => by rw [hdone hdocs]
  | cons n ns ih =>
    refine (h n List.mem_cons_self).bind fun text text' htext => ?_
    refine ih (fun m hm => h m (List.mem_cons_of_mem _ hm)) fun hdocs => ?_
    rw [hdone hdocs, htext hdocs]

end Lists

/-- A second writer follows a first one on every tree. If comments are taken out of the tree, the
first one writes nothing for a comment. -/
structure Mirrors (docs : Bool) (w w' : Writer) : Prop where
  write : ∀ role n,
    Follows docs (SameText docs) (w.write role n) (w'.write role (n.withDocs docs role))
  quiet : docs = false → ∀ m a s,
    match w.stmt (.doc m a) s with
    | .ok text s' => text = "" ∧ s'.scopes = s.scopes ∧ s'.indent = s.indent
    | .error .. => True

section Bodies

variable {w w' : Writer}

theorem Mirrors.stmt (h : Mirrors docs w w') (n : Node) :
    Follows docs (SameText docs) (w.stmt n) (w'.stmt (n.withDocs docs .statement)) :=
  h.write .statement n

theorem Mirrors.expr (h : Mirrors docs w w') (n : Node) :
    Follows docs (SameText docs) (w.expr n) (w'.expr (n.withDocs docs .expression)) :=
  h.write .expression n

theorem Mirrors.block (h : Mirrors docs w w') (isFunction : Bool) (bound : List String)
    (ns : List Node) :
    Follows docs (SameText docs) (block w isFunction bound ns)
      (block w' isFunction bound (ns.map (Node.withDocs docs .statement))) :=
  (follows_sequence (fun n _ => h.stmt n) fun _ => rfl).inScope isFunction bound

/-- A comment that is the whole of a branch or of a loop's body leaves an empty block behind. -/
theorem Mirrors.sequence_bodyOf (h : Mirrors docs w w') (n : Node) :
    Follows docs (SameText docs) (sequence w.stmt (bodyOf n) "")
      (sequence w'.stmt (bodyOf (n.withDocs docs .statement)) "") := by
  have hlone : bodyOf n = [n] → bodyOf (n.withDocs docs .statement) = [n.withDocs docs .statement] →
      Follows docs (SameText docs) (sequence w.stmt (bodyOf n) "")
        (sequence w'.stmt (bodyOf (n.withDocs docs .statement)) "") := by
    intro hn hn'
    rw [hn, hn']
    exact @follows_sequence docs _ _ _ [n] (fun m _ => h.stmt m) _ _ fun _ => rfl
  cases n with
  | block m body =>
    rw [Node.withDocs]
    exact follows_sequence (fun n _ => h.stmt n) fun _ => rfl
  | doc m a =>
    cases docs with
    | true => exact hlone rfl (by rw [Node.withDocs_true]; rfl)
    | false =>
      -- The comment is visited and leaves no text, the empty block has nothing to visit.
      rw [Node.withDocs, if_pos ⟨rfl, rfl⟩]
      intro s t hst
      have hquiet := h.quiet rfl m a s
      have hwrite : sequence w.stmt (bodyOf (.doc m a)) "" s
          = EStateM.bind (w.stmt (.doc m a)) (fun text => pure ("" ++ text)) s := rfl
      rw [hwrite, EStateM.bind]
      split at hquiet
      · rename_i text s' hp
        obtain ⟨rfl, hscopes, hindent⟩ := hquiet
        rw [hp]
        exact ⟨"", t, rfl, fun _ => rfl, hscopes.trans hst.scopes, hindent.trans hst.indent, nofun⟩
      · rename_i hp
        rw [hp]
        nofun
  | branch m a b no => cases no <;> exact hlone rfl (by rw [Node.withDocs]; rfl)
  | _ => exact hlone rfl (by rw [Node.withDocs]; rfl)

theorem Mirrors.body (h : Mirrors docs w w') (n : Node) :
    Follows docs (SameText docs) (Script.block w false [] (bodyOf n))
      (Script.block w' false [] (bodyOf (n.withDocs docs .statement))) :=
  (h.sequence_bodyOf n).inScope false []

theorem Mirrors.function (h : Mirrors docs w w') (params : Node) (body : List Node) :
    Follows docs (SameText docs) (function w params body)
      (function w' params (body.map (Node.withDocs docs .statement))) := by
  unfold Script.function
  split
  · refine (follows_paramNames _).bind fun names _ hnames => ?_
    subst hnames
    refine (h.block true names body).bind fun text text' htext => ?_
    intro s t hst
    exact ⟨_, t, rfl, fun hdocs => by rw [htext hdocs, hst.indent], hst⟩
  · exact follows_fail fun _ => ⟨rfl, rfl⟩

/-- An expression. Statements that stand where a value is needed are refused in both trees. -/
theorem Mirrors.exprBody (h : Mirrors docs w w') (n : Node) :
    Follows docs (SameText docs) (exprBody w n) (exprBody w' (n.withDocs docs .expression)) := by
  cases n with
  | str | num =>
    rw [Node.withDocs]
    exact follows_pure fun _ => rfl
  | ident =>
    rw [Node.withDocs]
    exact follows_identifier _
  | unary m op a =>
    rw [Node.withDocs]
    exact (h.expr a).bind fun _ _ ha => follows_pure fun hdocs => by rw [ha hdocs]
  | binary m op a b =>
    rw [Node.withDocs]
    refine (h.expr a).bind fun _ _ ha => (h.expr b).bind fun _ _ hb => follows_pure ?_
    exact fun hdocs => by rw [ha hdocs, hb hdocs]
  | function m a body =>
    rw [Node.withDocs]
    exact h.function a body
  | call m a args =>
    rw [Node.withDocs]
    refine (h.expr a).bind fun _ _ ha => ?_
    refine (follows_each (fun n _ => h.expr n) fun _ => rfl).bind fun _ _ hargs => follows_pure ?_
    exact fun hdocs => by rw [ha hdocs, hargs hdocs]
  | cast m a b =>
    rw [Node.withDocs]
    exact (h.expr a).bind fun _ _ ha => follows_pure fun hdocs => by rw [ha hdocs]
  | branch m a b no =>
    cases no with
    | none =>
      rw [Node.withDocs]
      refine (h.expr a).bind fun _ _ ha => (h.expr b).bind fun _ _ hb => follows_pure ?_
      exact fun hdocs => by rw [ha hdocs, hb hdocs]
    | some c =>
      rw [Node.withDocs]
      refine (h.expr a).bind fun _ _ ha => (h.expr b).bind fun _ _ hb => ?_
      refine (h.expr c).bind fun _ _ hc => follows_pure ?_
      exact fun hdocs => by rw [ha hdocs, hb hdocs, hc hdocs]
  | choice m a b c =>
    rw [Node.withDocs]
    refine (h.expr a).bind fun _ _ ha => (h.expr b).bind fun _ _ hb => ?_
    refine (h.expr c).bind fun _ _ hc => follows_pure ?_
    exact fun hdocs => by rw [ha hdocs, hb hdocs, hc hdocs]
  | member m a b =>
    rw [Node.withDocs]
    exact (h.expr a).bind fun _ _ ha => follows_pure fun hdocs => by rw [ha hdocs]
  | doc =>
    rw [Node.withDocs, if_neg nofun]
    exact follows_fail fun _ => ⟨rfl, rfl⟩
  | type | params | param =>
    rw [Node.withDocs]
    exact follows_fail fun _ => ⟨rfl, rfl⟩
  | program | declare | assign | increment | doWhile | result | forLess | block =>
    rw [Node.withDocs]
    exact follows_fail fun _ => ⟨rfl, rfl⟩

theorem stmtBody_doc (docs : Bool) (w : Writer) (m : Mark) (a : Node) (s : Emitting) :
    ∃ text, stmtBody docs w (.doc m a) s = .ok text s := by
  cases docs <;> cases a <;> exact ⟨_, rfl⟩

/-- A statement. The first run may skip comments, and does if they are taken out of the tree. -/
theorem Mirrors.stmtBody {left right : Bool} (hleft : docs = false → left = false)
    (h : Mirrors docs w w') (n : Node) :
    Follows docs (SameText docs) (stmtBody left w n)
      (stmtBody right w' (n.withDocs docs .statement)) := by
  have hvalue : n.withDocs docs .statement = n.withDocs docs .expression →
      Follows docs (SameText docs) (do let text ← w.expr n; line s!"{text};")
        (do let text ← w'.expr (n.withDocs docs .statement); line s!"{text};") := by
    intro hrole
    rw [hrole]
    exact (h.expr n).bind fun _ _ htext => follows_line fun hdocs => by rw [htext hdocs]
  cases n with
  | program m ns | block m ns =>
    rw [Node.withDocs]
    exact follows_sequence (fun n _ => h.stmt n) fun _ => rfl
  | doc m a =>
    intro s t hst
    cases docs with
    | true =>
      obtain ⟨text, hfirst⟩ := stmtBody_doc left w m a s
      obtain ⟨text', hsecond⟩ := stmtBody_doc right w' m a t
      rw [Node.withDocs_true, hfirst]
      exact ⟨text', t, hsecond, nofun, hst⟩
    | false =>
      rw [Node.withDocs, if_pos ⟨rfl, rfl⟩, hleft rfl]
      exact ⟨"", t, rfl, fun _ => rfl, hst⟩
  | declare m a b =>
    rw [Node.withDocs]
    refine (h.expr b).bind fun _ _ hb => (follows_bindingName a).bind fun name _ hname => ?_
    exact hname ▸ follows_declaration name hb
  | assign m a b =>
    rw [Node.withDocs]
    refine (h.expr b).bind fun _ _ hb => (follows_bindingName a).bind fun name _ hname => ?_
    exact hname ▸ follows_assignment name hb
  | increment m a =>
    rw [Node.withDocs]
    refine (follows_bindingName a).bind fun name _ hname => ?_
    exact hname ▸ follows_line fun _ => rfl
  | result m a =>
    rw [Node.withDocs]
    exact (h.expr a).bind fun _ _ ha => follows_line fun hdocs => by rw [ha hdocs]
  | forLess m a b c body =>
    rw [Node.withDocs]
    refine (follows_bindingName a).bind fun name _ hname => ?_
    subst hname
    refine (h.expr b).bind fun _ _ hb => (h.expr c).bind fun _ _ hc => ?_
    refine (follows_line ?_).bind fun _ _ hopening => ?_
    · exact fun hdocs => by rw [hb hdocs, hc hdocs]
    refine (h.block false [name] body).bind fun _ _ hbody => ?_
    refine (follows_line fun _ => rfl).bind fun _ _ hclosing => follows_pure ?_
    exact fun hdocs => by rw [hopening hdocs, hbody hdocs, hclosing hdocs]
  | doWhile m a b =>
    rw [Node.withDocs]
    refine (follows_line fun _ => rfl).bind fun _ _ hopening => ?_
    refine (h.body a).bind fun _ _ hbody => (h.expr b).bind fun _ _ hb => ?_
    refine (follows_line ?_).bind fun _ _ hclosing => follows_pure ?_
    · exact fun hdocs => by rw [hb hdocs]
    · exact fun hdocs => by rw [hopening hdocs, hbody hdocs, hclosing hdocs]
  | branch m a b no =>
    have hclose : ∀ {out out' : String}, SameText docs out out' → Follows docs (SameText docs)
        (do let closing ← line "\x7d"; pure (out ++ closing))
        (do let closing ← line "\x7d"; pure (out' ++ closing)) := by
      intro out out' hout
      refine (follows_line fun _ => rfl).bind fun _ _ hclosing => follows_pure ?_
      exact fun hdocs => by rw [hout hdocs, hclosing hdocs]
    cases no with
    | none =>
      rw [Node.withDocs]
      refine (h.expr a).bind fun _ _ ha => (follows_line ?_).bind fun _ _ hopening => ?_
      · exact fun hdocs => by rw [ha hdocs]
      refine (h.body b).bind fun _ _ hb => hclose ?_
      exact fun hdocs => by rw [hopening hdocs, hb hdocs]
    | some c =>
      rw [Node.withDocs]
      refine (h.expr a).bind fun _ _ ha => (follows_line ?_).bind fun _ _ hopening => ?_
      · exact fun hdocs => by rw [ha hdocs]
      refine (h.body b).bind fun _ _ hb => ?_
      refine (follows_line fun _ => rfl).bind fun _ _ helse => ?_
      refine (h.body c).bind fun _ _ hc => hclose ?_
      exact fun hdocs => by rw [hopening hdocs, hb hdocs, helse hdocs, hc hdocs]
  | type | params | param =>
    rw [Node.withDocs]
    exact follows_fail fun _ => ⟨rfl, rfl⟩
  | str | num | ident | unary | binary | function | call | cast | choice | member =>
    have hsame := hvalue (by rw [Node.withDocs, Node.withDocs])
    rw [Node.withDocs] at hsame ⊢
    exact hsame

end Bodies

theorem follows_modify {count : Emitting → Emitting}
    (h : ∀ s t, Alike docs s t → Alike docs (count s) (count t)) :
    Follows docs (fun _ _ => True) (modify count : Emit Unit) (modify count : Emit Unit) :=
  fun s t hst => ⟨(), count t, rfl, trivial, h s t hst⟩

/-- **The writer follows itself**, with whatever room there is. -/
theorem mirrors_writer {left right : Bool} (hleft : docs = false → left = false) (room : Nat) :
    Mirrors docs (writer left room) (writer right room) := by
  induction room with
  | zero =>
    refine ⟨fun role n => ?_, fun _ _ _ _ => trivial⟩
    -- Both refuse the node, and where failures count it is the same one.
    have hspan : docs = true → EmitCause.tooDeep = .tooDeep ∧
        n.span = (n.withDocs docs role).span := by
      rintro rfl
      rw [Node.withDocs_true]
      exact ⟨rfl, rfl⟩
    cases role <;> exact follows_fail hspan
  | succ room ih =>
    constructor
    · intro role n
      cases role with
      | statement =>
        refine ((follows_modify fun s t hst => ?_).bind fun _ _ _ => ih.stmtBody hleft n).nested
        exact hst.update ⟨hst.scopes, hst.indent⟩
      | expression =>
        refine ((follows_modify fun s t hst => ?_).bind fun _ _ _ => ih.exprBody n).nested
        exact hst.update ⟨hst.scopes, hst.indent⟩
    · intro hdocs m a s
      rw [hleft hdocs]
      exact ⟨rfl, rfl, rfl⟩

theorem follows_program {left right : Bool} (hleft : docs = false → left = false) (mark : Mark)
    (forms : List Node) :
    Follows docs (SameText docs) (program left (.program mark forms))
      (program right ((Node.program mark forms).withDocs docs .statement)) := by
  have hwriter := @mirrors_writer docs left right hleft Limits.emitDepth
  rw [Node.withDocs]
  refine (follows_sequence (fun n _ => hwriter.stmt n) fun _ => rfl).bind fun out out' hout => ?_
  have hget : Follows docs (Alike docs) (get : Emit Emitting) (get : Emit Emitting) :=
    fun s t hst => ⟨t, t, rfl, hst, hst⟩
  refine hget.bind fun s t hst => ?_
  rw [hst.scopes]
  cases t.scopes.getLast? with
  | none => exact follows_pure hout
  | some scope => exact follows_pure fun hdocs => by rw [hout hdocs]

section Program

variable (mark : Mark) (forms : List Node) (s : Emitting)

/-- With comments or without, a program is written or refused alike. -/
theorem program_course (left right : Bool) :
    (∃ a b s', program left (.program mark forms) s = .ok a s' ∧
      program right (.program mark forms) s = .ok b s') ∨
    ∃ e s', program left (.program mark forms) s = .error e s' ∧
      program right (.program mark forms) s = .error e s' := by
  have h := @follows_program true left right nofun mark forms s s ⟨rfl, rfl, fun _ => rfl⟩
  rw [Node.withDocs_true] at h
  cases hleft : program left (.program mark forms) s with
  | ok a s' =>
    rw [hleft] at h
    obtain ⟨b, t', hright, -, halike⟩ := h
    exact .inl ⟨a, b, s', rfl, halike.same rfl ▸ hright⟩
  | error e s' =>
    rw [hleft] at h
    exact .inr ⟨e, s', rfl, h rfl⟩

/-- Skipping the comments writes the tree without them. -/
theorem program_withoutDocs {a : String} {s' : Emitting}
    (h : program false (.program mark forms) s = .ok a s') :
    ∃ t', program true ((Node.program mark forms).withDocs false .statement) s = .ok a t' := by
  have hfollows := @follows_program false false true (fun _ => rfl) mark forms s s
    ⟨rfl, rfl, fun _ => rfl⟩
  rw [h] at hfollows
  obtain ⟨b, t', hright, hsame, -⟩ := hfollows
  exact ⟨t', hsame rfl ▸ hright⟩

end Program

end Script

/-! ## Compiling -/

/-- What writing comes to: what stands in front, and code that depends on one option only. -/
theorem writeScript_eq_front (options : ScriptOptions) (n : Node) :
    writeScript options n = match writeScript { options with includePrelude := false } n with
      | .ok body s => .ok (options.front ++ body) s
      | .error e s => .error e s := by
  unfold writeScript ScriptOptions.front
  dsimp only
  cases Script.program options.docComments n { scopes := [{ isFunction := true }] } with
  | error e s => rfl
  | ok body s => cases options.includePrelude <;> simp

/-- Under any two options, a program is written or refused alike. -/
theorem writeScript_course (options options' : ScriptOptions) (mark : Mark) (forms : List Node) :
    (∃ text text' s, writeScript options (.program mark forms) = .ok text s ∧
      writeScript options' (.program mark forms) = .ok text' s) ∨
    ∃ e s, writeScript options (.program mark forms) = .error e s ∧
      writeScript options' (.program mark forms) = .error e s := by
  unfold writeScript
  obtain ⟨a, b, s, hleft, hright⟩ | ⟨e, s, hleft, hright⟩ :=
    Script.program_course mark forms { scopes := [{ isFunction := true }] } options.docComments
      options'.docComments
  · rw [hleft, hright]
    exact .inl ⟨_, _, s, rfl, rfl⟩
  · rw [hleft, hright]
    exact .inr ⟨e, s, rfl, rfl⟩

theorem Scan.stream_eq {s s' : Scan} (h : s.untracked = s'.untracked) (source : List Char) :
    s.stream source = s'.stream source := by
  change s.untracked.stream source = s'.untracked.stream source
  rw [h]

/-- What two attempts at one source have in common: the error, or all that was compiled but the code
and the list of operators. -/
theorem compile_course (p q : Preferences) (source : List Char) :
    (∃ e, compile p source = .error e ∧ compile q source = .error e) ∨
    ∃ c d, compile p source = .ok c ∧ compile q source = .ok d ∧
      c.scan.untracked = d.scan.untracked ∧ c.tree = d.tree ∧ c.emitting = d.emitting := by
  have hscan := Scan.outcome_ofSource source (p.isOn .trackOperators) (q.isOn .trackOperators)
  unfold compile attempt
  cases hp : Scan.ofSource source (p.isOn .trackOperators) with
  | error e =>
    cases hq : Scan.ofSource source (q.isOn .trackOperators) with
    | error e' =>
      rw [hp, hq] at hscan
      have hsame : e.1 = e'.1 := Except.error.inj hscan
      exact .inl ⟨.lexical e'.1, by rw [← hsame]; rfl, rfl⟩
    | ok s' =>
      rw [hp, hq] at hscan
      cases hscan
  | ok s =>
    cases hq : Scan.ofSource source (q.isOn .trackOperators) with
    | error e' =>
      rw [hp, hq] at hscan
      cases hscan
    | ok s' =>
      rw [hp, hq] at hscan
      have huntracked : s.untracked = s'.untracked := Except.ok.inj hscan
      dsimp only
      rw [Scan.stream_eq huntracked]
      cases hparse : parseProgram (s'.stream source) with
      | error e parsing => exact .inl ⟨.syntactic e, rfl, rfl⟩
      | ok tree parsing =>
        obtain ⟨span, forms, rfl, -⟩ := parse_stems hq hparse
        dsimp only
        obtain ⟨text, text', t, hleft, hright⟩ | ⟨e, t, hleft, hright⟩ :=
          writeScript_course p.scriptOptions q.scriptOptions ⟨span, none⟩ forms
        · rw [hleft, hright]
          exact .inr ⟨_, _, rfl, rfl, huntracked, rfl, rfl⟩
        · rw [hleft, hright]
          exact .inl ⟨.emission e, rfl, rfl⟩

/-- The code of a tree behind what stands in front, with comments or without. -/
def Node.codeOf (tree : Node) (docs : Bool) : String :=
  match writeScript { includePrelude := false, docComments := docs } tree with
  | .ok text _ => text
  | .error .. => ""

theorem Compiled.code_eq {p : Preferences} {source : List Char} {c : Compiled}
    (h : compile p source = .ok c) :
    c.code = p.scriptOptions.front ++ c.tree.codeOf (p.isOn .docComments) := by
  obtain ⟨-, -, hwrite⟩ := compile_eq_ok_iff.mp h
  rw [writeScript_eq_front] at hwrite
  unfold Node.codeOf
  split at hwrite
  · rename_i body s heq
    have heq : writeScript { includePrelude := false, docComments := p.isOn .docComments } c.tree
        = .ok body s := heq
    rw [heq]
    exact (EStateM.Result.ok.inj hwrite).1.symm
  · cases hwrite

theorem Compiled.codeOf_withoutDocs {p : Preferences} {source : List Char} {c : Compiled}
    (h : compile p source = .ok c) :
    ∃ s, writeScript { includePrelude := false, docComments := true }
      (c.tree.withDocs false .statement) = .ok (c.tree.codeOf false) s := by
  obtain ⟨hscan, hparse, hwrite⟩ := compile_eq_ok_iff.mp h
  obtain ⟨span, forms, htree, -⟩ := parse_stems hscan hparse
  rw [htree] at hwrite ⊢
  obtain ⟨text, body, s, -, hbody⟩ | ⟨e, s, herror, -⟩ := writeScript_course p.scriptOptions
    { includePrelude := false, docComments := false } ⟨span, none⟩ forms
  · unfold Node.codeOf
    rw [hbody]
    unfold writeScript at hbody ⊢
    cases hprogram : Script.program false (.program ⟨span, none⟩ forms)
        { scopes := [{ isFunction := true }] } with
    | error e s => simp [hprogram] at hbody
    | ok a s' =>
      rw [hprogram] at hbody
      cases hbody
      obtain ⟨t, ht⟩ := Script.program_withoutDocs _ _ _ hprogram
      rw [ht]
      exact ⟨t, rfl⟩
  · rw [hwrite] at herror
    cases herror

/-- **Preferences do not decide what is accepted.** Under any two preferences a source is refused
with the same error, which is shown in the same way, or it is compiled with the same tokens, the
same tree and the same counts, the list of operators apart. Its code is what stands in front, which
the preference for the prelude decides, and a text that the preference for comments decides. Without
comments, that text is the one that the tree has, with comments, in which an empty block stands for
every comment among statements. -/
theorem compile_under_preferences (file : String) (source : List Char) :
    (∀ p q : Preferences, match compile p source, compile q source with
      | .error e, .error e' => e = e' ∧ e.diagnostic file source = e'.diagnostic file source
      | .ok c, .ok d =>
        c.tokens = d.tokens ∧ c.tree = d.tree ∧ c.emitting.tally = d.emitting.tally ∧
          c.scan.tally.withoutUse = d.scan.tally.withoutUse
      | _, _ => False) ∧
    ∃ body : Bool → String, ∀ (p : Preferences) (c : Compiled), compile p source = .ok c →
      c.code = (if p.isOn .includePrelude then prelude else "") ++ body (p.isOn .docComments) ∧
      ∃ s, writeScript { includePrelude := false, docComments := true }
        (c.tree.withDocs false .statement) = .ok (body false) s := by
  constructor
  · intro p q
    obtain ⟨e, hp, hq⟩ | ⟨c, d, hp, hq, hscan, htree, hemitting⟩ := compile_course p q source
    · rw [hp, hq]
      exact ⟨rfl, rfl⟩
    · rw [hp, hq]
      refine ⟨?_, htree, by rw [hemitting], congrArg Scan.tally hscan⟩
      change c.scan.untracked.tokens.toList = d.scan.untracked.tokens.toList
      rw [hscan]
  · -- If the source is compiled at all, its tree is known, and the code is what the tree gives.
    cases hdefault : compile {} source with
    | error e =>
      refine ⟨fun _ => "", fun p c hc => ?_⟩
      obtain ⟨e', -, hp⟩ | ⟨d, -, hd, -⟩ := compile_course {} p source
      · rw [hc] at hp
        cases hp
      · rw [hdefault] at hd
        cases hd
    | ok d =>
      refine ⟨d.tree.codeOf, fun p c hc => ?_⟩
      have htree : d.tree = c.tree := by
        obtain ⟨e', he, -⟩ | ⟨d', c', hd, hp, -, htree, -⟩ := compile_course {} p source
        · rw [hdefault] at he
          cases he
        · rw [hdefault] at hd
          rw [hc] at hp
          cases hd
          cases hp
          exact htree
      rw [htree]
      exact ⟨Compiled.code_eq hc, Compiled.codeOf_withoutDocs hc⟩

end FormScript
