import EmbeddedExpr.Grammar.Build
import EmbeddedExpr.Proofs.Grammar.Extent
import EmbeddedExpr.Proofs.Syntax.Operands

/-!
# What building keeps to

Building counts heights by hand: a node counts one more than the greatest count below it,
and a macro counts its arguments although they are taken apart.  The count is never less
than the height of the tree and never more than the bound, and no node has offsets or
counts of operands beyond those of the phrase it was built from; literals that are doubles
are finite.  This is `Built.Sound`, which every way of building keeps (`build_sound`); what
it says of the tree of a source is `parse_fits`.
-/

namespace EmbeddedExpr

namespace Expr

/-- The length of the list of operands that a node has. -/
def listLength : Expr → Nat
  | list _ items => items.length
  | map _ entries => entries.length
  | call _ _ args | method _ _ _ args => args.length
  | _ => 0

/-- Whether a node is anything but a double without a finite value. -/
def isFinite : Expr → Bool
  | literal _ (.double x) => x.isFinite
  | _ => true

/-- The numbers of a node itself are within a limit, and a double is finite. -/
structure NodeWithin (limit : Nat) (e : Expr) : Prop where
  span : e.span.Within limit
  listLength : e.listLength ≤ limit
  finite : e.isFinite = true

/-- A tree at most `below` high whose nodes are within a limit. -/
def Fits (limit below : Nat) (e : Expr) : Prop := e.height ≤ below ∧ e.All (NodeWithin limit)

theorem Fits.mono {limit below above : Nat} {e : Expr} (h : e.Fits limit below)
    (hle : below ≤ above) : e.Fits limit above :=
  ⟨Nat.le_trans h.1 hle, h.2⟩

end Expr

namespace Grammar

theorem of_bind_eq_ok {ε α β : Type} {result : Except ε α} {next : α → Except ε β} {b : β}
    (h : (result >>= next) = .ok b) : ∃ a, result = .ok a ∧ next a = .ok b := by
  cases result with
  | error e => cases h
  | ok a => exact ⟨a, rfl, h⟩

/-- What is done with a result is done with this one. -/
theorem bind_of_ok {ε α β : Type} {result : Except ε α} {a : α} (h : result = .ok a)
    (next : α → Except ε β) : (result >>= next) = next a := by
  rw [h]
  rfl

namespace Built

/-- A built tree whose count is at least its height and at most the bound, and whose nodes
are within a limit. -/
structure Sound (bound limit : Nat) (b : Built) : Prop where
  height_le : b.expr.height ≤ b.height
  le_bound : b.height ≤ bound
  within : b.expr.All (Expr.NodeWithin limit)

variable {bound limit : Nat}

theorem Sound.span {b : Built} (h : b.Sound bound limit) : b.expr.span.Within limit := by
  cases h.within with
  | node hnode _ => exact hnode.span

/-! ### Settling -/

theorem settle_eq_ok {b c : Built} (h : b.settle = .ok c) : c = b := by
  unfold settle at h
  split at h
  · cases h; rfl
  · cases h

/-- Trees as operands are the same trees, and each of them is one. -/
theorem settleAll_eq_ok {bs cs : List Built} (h : settleAll bs = .ok cs) :
    cs = bs ∧ ∀ b ∈ bs, b.settle = .ok b := by
  induction bs generalizing cs with
  | nil => cases h; exact ⟨rfl, nofun⟩
  | cons b rest ih =>
      obtain ⟨first, hfirst, h⟩ := of_bind_eq_ok h
      obtain ⟨others, hothers, h⟩ := of_bind_eq_ok h
      cases h
      obtain rfl := settle_eq_ok hfirst
      obtain ⟨rfl, hsettled⟩ := ih hothers
      exact ⟨rfl, List.forall_mem_cons.mpr ⟨hfirst, hsettled⟩⟩

/-- What is built and settled before the next step. -/
theorem of_settled_eq_ok {α : Type} {result : Except ParseError Built}
    {next : Built → Except ParseError α} {a : α}
    (h : (result >>= fun b => b.settle >>= next) = .ok a) :
    ∃ b, result = .ok b ∧ b.settle = .ok b ∧ next b = .ok a := by
  obtain ⟨b, hb, hsettled⟩ := of_bind_eq_ok h
  obtain ⟨c, hc, hnext⟩ := of_bind_eq_ok hsettled
  obtain rfl := settle_eq_ok hc
  exact ⟨c, hb, hc, hnext⟩

theorem of_settledAll_eq_ok {α : Type} {result : Except ParseError (List Built)}
    {next : List Built → Except ParseError α} {a : α}
    (h : (result >>= fun bs => settleAll bs >>= next) = .ok a) :
    ∃ bs, result = .ok bs ∧ (∀ b ∈ bs, b.settle = .ok b) ∧ next bs = .ok a := by
  obtain ⟨bs, hbs, hsettled⟩ := of_bind_eq_ok h
  obtain ⟨cs, hcs, hnext⟩ := of_bind_eq_ok hsettled
  obtain ⟨rfl, hall⟩ := settleAll_eq_ok hcs
  exact ⟨cs, hbs, hall, hnext⟩

theorem height_le_greatest {b : Built} {bs : List Built} (h : b ∈ bs) :
    b.height ≤ greatest bs :=
  (Expr.foldl_max_le_iff.mp (Nat.le_refl (greatest bs))).2 _ (List.mem_map.mpr ⟨b, h, rfl⟩)

theorem greatest_le {bs : List Built} {below : Nat} (h : ∀ b ∈ bs, b.height ≤ below) :
    greatest bs ≤ below :=
  Expr.foldl_max_le_iff.mpr ⟨Nat.zero_le _, List.forall_mem_map.mpr h⟩

/-! ### Leaves and nodes -/

theorem sound_leaf {expr : Expr} (hnode : expr.NodeWithin limit) (hleaf : expr.operands = [])
    (hheight : expr.height = 0) (minMagnitude : Option (List Char)) :
    (⟨expr, 0, minMagnitude⟩ : Built).Sound bound limit :=
  ⟨Nat.le_of_eq hheight, Nat.zero_le _, .node hnode (by rw [hleaf]; nofun)⟩

theorem sound_constant {span : Span} {value : Literal} (hspan : span.Within limit)
    (hfinite : (Expr.literal span value).isFinite = true) (minMagnitude : Option (List Char)) :
    (⟨.literal span value, 0, minMagnitude⟩ : Built).Sound bound limit :=
  sound_leaf ⟨hspan, Nat.zero_le _, hfinite⟩ rfl rfl _

theorem node_eq_ok {expr : Expr} {below : Nat} (h : below < bound) :
    node bound expr below = .ok ⟨expr, below + 1, none⟩ :=
  if_neg (Nat.not_lt.mpr h)

theorem sound_of_node {expr : Expr} {below : Nat} {b : Built}
    (h : node bound expr below = .ok b) (hnode : expr.NodeWithin limit)
    (hoperands : ∀ o ∈ expr.operands, o.2.Fits limit below) : b.Sound bound limit := by
  unfold node at h
  split at h
  · cases h
  · rename_i hbound
    cases h
    refine ⟨Expr.height_le_succ fun o ho => (hoperands o ho).1, Nat.le_of_not_lt hbound, ?_⟩
    exact .node hnode fun o ho => (hoperands o ho).2

/-- What is built of a literal or a name.  The magnitude of the least integer is left to a minus,
and no fault of a literal is that it is too deep. -/
inductive Leaf (span : Span) : Token → Except ParseError Built → Prop
  | name (text : List Char) : Leaf span (.name text) (.ok (leaf (.ident span (String.ofList text))))
  | null : Leaf span .null (.ok (constant span .null))
  | bool (b : Bool) : Leaf span (.bool b) (.ok (constant span (.bool b)))
  | int {hex : Bool} {digits text : List Char} {n : Nat} {i : Int64} :
      magnitude? hex digits = some n → i.toInt = n →
      Leaf span (.int hex digits text) (.ok (constant span (.int i)))
  | least {hex : Bool} {digits text : List Char} :
      magnitude? hex digits = some 0x8000000000000000 →
      Leaf span (.int hex digits text) (.ok ⟨.literal span (.int Int64.minValue), 0, some text⟩)
  | uint {hex : Bool} {digits text : List Char} {u : UInt64} :
      magnitude? hex digits = some u.toNat →
      Leaf span (.uint hex digits text) (.ok (constant span (.uint u)))
  | double (text : List Char) {x : Double} : x.isFinite = true →
      Leaf span (.double text) (.ok (constant span (.double x)))
  | text (raw : Bool) (body : List Char) (s : String) :
      Leaf span (.text raw body) (.ok (constant span (.text s)))
  | bytes (raw : Bool) (body : List Char) (bs : List UInt8) :
      Leaf span (.bytes raw body) (.ok (constant span (.bytes bs)))
  | fault (token : Token) {fault : ParseFault} :
      (∀ depth bound, fault ≠ .tooDeep depth bound) → Leaf span token (.error ⟨fault, span⟩)

theorem leaf_int (span : Span) (hex : Bool) (digits text : List Char) :
    Leaf span (.int hex digits text) (ofToken span (.int hex digits text)) := by
  -- hidden from the kernel, which would compute with the bounds of words
  obtain ⟨word?, hword⟩ : ∃ word?, word? = Number.int64? := ⟨_, rfl⟩
  rw [ofToken, ← hword]
  split
  · rename_i n hn
    split
    · rename_i i hi
      exact .int hn (Number.int64?_eq_some_iff.mp (hword ▸ hi))
    · split
      · rename_i hleast
        exact .least (hleast ▸ hn)
      · exact .fault _ nofun
  · exact .fault _ nofun

theorem leaf_uint (span : Span) (hex : Bool) (digits text : List Char) :
    Leaf span (.uint hex digits text) (ofToken span (.uint hex digits text)) := by
  rw [ofToken]
  split
  · rename_i u hu
    obtain ⟨n, hn, hfits⟩ := Option.bind_eq_some_iff.mp hu
    have hvalue : u.toNat = n := Int.ofNat_inj.mp (Number.uint64?_eq_some_iff.mp hfits)
    exact .uint (hvalue ▸ hn)
  · exact .fault _ nofun

/-- The only results that building a literal or a name has. -/
theorem ofToken_leaf (span : Span) (token : Token) : Leaf span token (ofToken span token) := by
  cases token with
  | null => exact .null
  | bool b => exact .bool b
  | name text => exact .name text
  | int hex digits text => exact leaf_int span hex digits text
  | uint hex digits text => exact leaf_uint span hex digits text
  | double text =>
      rw [ofToken]
      split
      · split
        · rename_i hfinite
          exact .double text hfinite
        · exact .fault _ nofun
      · exact .fault _ nofun
  | text raw body =>
      simp only [ofToken]
      split
      · exact .text raw body _
      · split
        · exact .text raw body _
        · exact .fault _ nofun
  | bytes raw body =>
      simp only [ofToken]
      split
      · exact .bytes raw body _
      · split
        · exact .bytes raw body _
        · exact .fault _ nofun

theorem leaf_of_ofToken {span : Span} {token : Token} {b : Built} (h : ofToken span token = .ok b) :
    Leaf span token (.ok b) :=
  h ▸ ofToken_leaf span token

theorem sound_of_ofToken {span : Span} {token : Token} {b : Built}
    (h : ofToken span token = .ok b) (hspan : span.Within limit) : b.Sound bound limit := by
  cases leaf_of_ofToken h with
  | name => exact sound_leaf ⟨hspan, Nat.zero_le _, rfl⟩ rfl rfl none
  | null | bool | int | least | uint | text | bytes => exact sound_constant hspan rfl _
  | @double _ x hfinite =>
      have hnode : (Expr.literal span (.double x)).isFinite = true := hfinite
      exact sound_constant hspan hnode none

/-! ### Operators, macros and calls -/

theorem Sound.fits {b : Built} (h : b.Sound bound limit) {below : Nat} (hbelow : b.height ≤ below) :
    b.expr.Fits limit below :=
  ⟨Nat.le_trans h.height_le hbelow, h.within⟩

/-- Trees as operands do not exceed the greatest of their counts. -/
theorem fits_of_sound {bs : List Built} (h : ∀ b ∈ bs, b.Sound bound limit) :
    ∀ e ∈ bs.map Built.expr, e.Fits limit (greatest bs) := by
  intro e he
  obtain ⟨b, hb, rfl⟩ := List.mem_map.mp he
  exact (h b hb).fits (height_le_greatest hb)

theorem sound_of_signed {start : Nat} {op : UnaryOp} {operand b : Built}
    (h : signed bound start op operand = .ok b) (hstart : start ≤ limit)
    (hoperand : operand.Sound bound limit) : b.Sound bound limit := by
  have hspan : Span.Within limit ⟨start, operand.expr.span.stop⟩ := ⟨hstart, hoperand.span.2⟩
  simp only [signed] at h
  split at h
  · cases h; exact sound_constant hspan rfl none
  · obtain ⟨settled, hsettled, h⟩ := of_bind_eq_ok h
    rw [settle_eq_ok hsettled] at h
    refine sound_of_node h ⟨hspan, Nat.zero_le _, rfl⟩ ?_
    exact List.forall_mem_singleton.mpr (hoperand.fits (Nat.le_refl _))

theorem sound_of_infixExpr {span : Span} {op : InfixOp} {left right b : Built}
    (h : node bound (infixExpr span op left.expr right.expr) (max left.height right.height) =
      .ok b)
    (hspan : span.Within limit) (hleft : left.Sound bound limit)
    (hright : right.Sound bound limit) : b.Sound bound limit := by
  have hoperands : ∀ o ∈ [(([] : List String), left.expr), ([], right.expr)],
      o.2.Fits limit (max left.height right.height) :=
    List.forall_mem_cons.mpr ⟨hleft.fits (Nat.le_max_left _ _),
      List.forall_mem_singleton.mpr (hright.fits (Nat.le_max_right _ _))⟩
  cases op with
  | logic | relation | arith => exact sound_of_node h ⟨hspan, Nat.zero_le _, rfl⟩ hoperands

/-- What becomes of a call: a node above some of its parts, in their order, or above the target of
the field that is its only argument, unless it is a macro that is misused. -/
inductive Expands (span : Span) (below : Nat) :
    Option Expr → List Expr → (Nat → Except ParseError Built) → Prop
  | misuse {target : Option Expr} {args : List Expr} (name : String) (fault : MacroFault) :
      Expands span below target args fun _ => misuse span name fault
  | has (fieldSpan : Span) (target : Expr) (name : String) :
      Expands span below none [.field fieldSpan target name] fun bound =>
        node bound (.has span target name) below
  | node {target : Option Expr} {args : List Expr} {expr : Expr} :
      expr.span = span → (∀ span value, expr ≠ .literal span value) →
      expr.listLength ≤ args.length →
      (expr.operands.map Prod.snd).Sublist (target.toList ++ args) →
      Expands span below target args fun bound => node bound expr below

theorem has_expands (span : Span) (args : List Expr) (below : Nat) :
    Expands span below none args fun bound => has bound span args below := by
  match args with
  | [] => exact .misuse "has" .hasArity
  | [arg] =>
    cases arg with
    | field fieldSpan target name => exact .has fieldSpan target name
    | _ => exact .misuse "has" .hasArgument
  | arg :: _ :: _ => cases arg <;> exact .misuse "has" .hasArity

/-- An iteration drops its variable from its arguments. -/
theorem iteration_expands (span : Span) (kind : IterationKind) (range : Expr) (args : List Expr)
    (below : Nat) :
    Expands span below (some range) args fun bound =>
      iteration bound span kind range args below := by
  have hiterate {var : Expr} {kept : List Expr} (name : String) (filter : Option Expr) (body : Expr)
      (hoperands : (Expr.iterate span kind range name filter body).operands.map Prod.snd =
        range :: kept) :
      Expands span below (some range) (var :: kept) fun bound =>
        node bound (.iterate span kind range name filter body) below :=
    .node rfl (fun _ _ heq => by cases heq) (Nat.zero_le _)
      (hoperands ▸ (List.sublist_cons_self var kept).cons_cons range)
  match args with
  | [] | [_] | _ :: _ :: _ :: _ :: _ => exact .misuse kind.name (.arity (decide (kind = .map)))
  | [var, body] =>
    cases var with
    | ident _ name => exact hiterate name none body rfl
    | _ => exact .misuse kind.name .variable
  | [var, filter, body] =>
    by_cases hkind : kind = .map
    · simp only [iteration, if_pos hkind]
      cases var with
      | ident _ name => exact hiterate name (some filter) body rfl
      | _ => exact .misuse kind.name .variable
    · simp only [iteration, if_neg hkind]
      exact .misuse kind.name (.arity false)

theorem call_expands (span : Span) (function : String) (args : List Expr) (below : Nat) :
    Expands span below none args fun bound => call bound span function args below := by
  by_cases hhas : function = "has"
  · simp only [call, if_pos hhas]
    exact has_expands span args below
  · simp only [call, if_neg hhas]
    refine .node rfl (fun _ _ heq => by cases heq) (Nat.le_refl _) ?_
    simp [Expr.operands, Function.comp_def]

theorem method_expands (span : Span) (target : Expr) (function : String) (args : List Expr)
    (below : Nat) :
    Expands span below (some target) args fun bound =>
      method bound span target function args below := by
  unfold method
  cases IterationKind.ofName? function with
  | some kind => exact iteration_expands span kind target args below
  | none =>
      refine .node rfl (fun _ _ heq => by cases heq) (Nat.le_refl _) ?_
      simp [Expr.operands, Function.comp_def]

theorem sound_of_expands {span : Span} {below : Nat} {target : Option Expr} {args : List Expr}
    {build : Nat → Except ParseError Built} {b : Built} (h : Expands span below target args build)
    (hbuild : build bound = .ok b) (hspan : span.Within limit) (hlength : args.length ≤ limit)
    (hparts : ∀ part ∈ target.toList ++ args, part.Fits limit below) : b.Sound bound limit := by
  cases h with
  | misuse => cases hbuild
  | has fieldSpan target name =>
      -- the target is even lower than the argument
      obtain ⟨hheight, hwithin⟩ := hparts _ (List.mem_singleton.mpr rfl)
      refine sound_of_node hbuild ⟨hspan, Nat.zero_le _, rfl⟩
        (List.forall_mem_singleton.mpr ⟨?_, ?_⟩)
      · exact Nat.le_of_succ_le hheight
      · cases hwithin with
        | node _ hoperands => exact hoperands _ (List.mem_singleton.mpr rfl)
  | @node _ _ expr hexpr hne hcount hoperands =>
      have hfinite : expr.isFinite = true := by
        cases expr with
        | literal span value => exact absurd rfl (hne span value)
        | _ => rfl
      exact sound_of_node hbuild ⟨hexpr ▸ hspan, Nat.le_trans hcount hlength, hfinite⟩ fun o ho =>
        hparts o.2 (hoperands.subset (List.mem_map_of_mem ho))

end Built

/-! ### Phrases -/

namespace Phrase

variable {bound limit : Nat}

theorem buildItems_eq_ok {items : List Phrase} {bs : List Built}
    (h : buildItems bound items = .ok bs) :
    bs.length = items.length ∧ ∀ b ∈ bs, ∃ item ∈ items, build bound item = .ok b := by
  induction items generalizing bs with
  | nil => cases h; exact ⟨rfl, nofun⟩
  | cons item rest ih =>
      obtain ⟨b, hb, h⟩ := of_bind_eq_ok h
      obtain ⟨others, hothers, h⟩ := of_bind_eq_ok h
      cases h
      obtain ⟨hlength, hmem⟩ := ih hothers
      refine ⟨congrArg Nat.succ hlength, List.forall_mem_cons.mpr ⟨?_, fun c hc => ?_⟩⟩
      · exact ⟨item, List.mem_cons_self .., hb⟩
      · obtain ⟨other, hother, hbuild⟩ := hmem c hc
        exact ⟨other, List.mem_cons_of_mem _ hother, hbuild⟩

theorem buildEntries_eq_ok {entries : List (Phrase × Phrase)} {built : List (Built × Built)}
    (h : buildEntries bound entries = .ok built) :
    built.length = entries.length ∧ ∀ b ∈ built, ∃ entry ∈ entries,
      (build bound entry.1 = .ok b.1 ∧ b.1.settle = .ok b.1) ∧
        build bound entry.2 = .ok b.2 ∧ b.2.settle = .ok b.2 := by
  induction entries generalizing built with
  | nil => cases h; exact ⟨rfl, nofun⟩
  | cons entry rest ih =>
      obtain ⟨key, value⟩ := entry
      obtain ⟨k, hk, hk', h⟩ := Built.of_settled_eq_ok h
      obtain ⟨v, hv, hv', h⟩ := Built.of_settled_eq_ok h
      obtain ⟨others, hothers, h⟩ := of_bind_eq_ok h
      cases h
      obtain ⟨hlength, hmem⟩ := ih hothers
      refine ⟨congrArg Nat.succ hlength, List.forall_mem_cons.mpr ⟨?_, fun c hc => ?_⟩⟩
      · exact ⟨(key, value), List.mem_cons_self .., ⟨hk, hk'⟩, hv, hv'⟩
      · obtain ⟨other, hother, hbuild⟩ := hmem c hc
        exact ⟨other, List.mem_cons_of_mem _ hother, hbuild⟩

theorem soundItems {items : List Phrase} {bs : List Built}
    (ih : ∀ item ∈ items, ∀ {b : Built}, build bound item = .ok b → b.Sound bound limit)
    (h : buildItems bound items = .ok bs) :
    bs.length = items.length ∧ ∀ b ∈ bs, b.Sound bound limit := by
  obtain ⟨hlength, hmem⟩ := buildItems_eq_ok h
  refine ⟨hlength, fun b hb => ?_⟩
  obtain ⟨item, hitem, hbuild⟩ := hmem b hb
  exact ih item hitem hbuild

/-- A phrase whose numbers are within a limit is built into a sound tree. -/
theorem build_sound {phrase : Phrase} (hphrase : phrase.Within limit) {b : Built}
    (h : phrase.build bound = .ok b) : b.Sound bound limit := by
  induction hphrase generalizing b with
  | atom hspan => exact Built.sound_of_ofToken h hspan
  | group _ ih =>
      obtain ⟨inner, hinner, h⟩ := of_bind_eq_ok h
      obtain rfl := Built.settle_eq_ok h
      exact ih hinner
  | list hspan hlength _ ih =>
      obtain ⟨items, hbuilt, -, h⟩ := Built.of_settledAll_eq_ok h
      obtain ⟨hcount, hsound⟩ := soundItems ih hbuilt
      refine Built.sound_of_node h ⟨hspan, ?_, rfl⟩ ?_
      · simpa [Expr.listLength, hcount] using hlength
      · exact List.forall_mem_map.mpr (Built.fits_of_sound hsound)
  | map hspan hlength _ _ ihkey ihvalue =>
      -- keys and values are built in turn and counted together
      obtain ⟨built, hbuilt, h⟩ := of_bind_eq_ok h
      obtain ⟨hcount, hmem⟩ := buildEntries_eq_ok hbuilt
      have hsound : ∀ b ∈ built.flatMap fun entry => [entry.1, entry.2], b.Sound bound limit := by
        refine Expr.forall_mem_flatMap_pair.mpr fun entry hentry => ?_
        obtain ⟨source, hsource, ⟨hkey, -⟩, hvalue, -⟩ := hmem entry hentry
        exact ⟨ihkey source hsource hkey, ihvalue source hsource hvalue⟩
      refine Built.sound_of_node h ⟨hspan, ?_, rfl⟩ ?_
      · simpa [Expr.listLength, hcount] using hlength
      · have hfits := Built.fits_of_sound hsound
        rw [List.forall_mem_map, Expr.forall_mem_flatMap_pair] at hfits
        simp only [Expr.operands, List.flatMap_map]
        exact Expr.forall_mem_flatMap_pair.mpr hfits
  | call hspan hlength _ ih =>
      obtain ⟨args, hbuilt, -, h⟩ := Built.of_settledAll_eq_ok h
      obtain ⟨hcount, hsound⟩ := soundItems ih hbuilt
      refine Built.sound_of_expands (Built.call_expands ..) h hspan ?_ (Built.fits_of_sound hsound)
      simpa [hcount] using hlength
  | sign hstart _ ih =>
      obtain ⟨operand, hoperand, h⟩ := of_bind_eq_ok h
      exact Built.sound_of_signed h hstart (ih hoperand)
  | field _ hstop ih =>
      obtain ⟨target, hbuilt, -, h⟩ := Built.of_settled_eq_ok h
      have hsound := ih hbuilt
      refine Built.sound_of_node h ⟨⟨hsound.span.1, hstop⟩, Nat.zero_le _, rfl⟩ ?_
      exact List.forall_mem_singleton.mpr (hsound.fits (Nat.le_refl _))
  | method _ hlength _ hstop ihtarget ihargs =>
      obtain ⟨target, hbuilt, -, h⟩ := Built.of_settled_eq_ok h
      obtain ⟨args, hargs, -, h⟩ := Built.of_settledAll_eq_ok h
      have hsound := ihtarget hbuilt
      obtain ⟨hcount, hitems⟩ := soundItems ihargs hargs
      refine Built.sound_of_expands (Built.method_expands ..) h ⟨hsound.span.1, hstop⟩ ?_
        (List.forall_mem_cons.mpr ⟨hsound.fits (Nat.le_max_left _ _), fun arg harg => ?_⟩)
      · simpa [hcount] using hlength
      · exact (Built.fits_of_sound hitems arg harg).mono (Nat.le_max_right _ _)
  | index _ _ hstop ihtarget ihposition =>
      obtain ⟨target, hbuilt, -, h⟩ := Built.of_settled_eq_ok h
      obtain ⟨position, hposition, -, h⟩ := Built.of_settled_eq_ok h
      have hsound := ihtarget hbuilt
      refine Built.sound_of_node h ⟨⟨hsound.span.1, hstop⟩, Nat.zero_le _, rfl⟩ ?_
      exact List.forall_mem_cons.mpr ⟨hsound.fits (Nat.le_max_left _ _),
        List.forall_mem_singleton.mpr ((ihposition hposition).fits (Nat.le_max_right _ _))⟩
  | infixed _ _ ihleft ihright =>
      obtain ⟨left, hleft, -, h⟩ := Built.of_settled_eq_ok h
      obtain ⟨right, hright, -, h⟩ := Built.of_settled_eq_ok h
      have hsound := ihleft hleft
      exact Built.sound_of_infixExpr h ⟨hsound.span.1, (ihright hright).span.2⟩ hsound
        (ihright hright)
  | choice _ _ _ ihcondition ihtrue ihfalse =>
      -- the branches are built in the other order than they are written
      obtain ⟨condition, hcondition, -, h⟩ := Built.of_settled_eq_ok h
      obtain ⟨whenFalse, hfalse, -, h⟩ := Built.of_settled_eq_ok h
      obtain ⟨whenTrue, htrue, -, h⟩ := Built.of_settled_eq_ok h
      have hc := ihcondition hcondition
      have hf := ihfalse hfalse
      refine Built.sound_of_node h ⟨⟨hc.span.1, hf.span.2⟩, Nat.zero_le _, rfl⟩ ?_
      refine List.forall_mem_cons.mpr ⟨hc.fits (by omega), List.forall_mem_cons.mpr ⟨?_, ?_⟩⟩
      · exact (ihtrue htrue).fits (by omega)
      · exact List.forall_mem_singleton.mpr (hf.fits (by omega))

end Phrase

/-! ### Sources -/

/-- The phrase of a parsed source and its tree. -/
theorem parse_eq_ok {bound : Nat} {source : List Char} {e : Expr} (h : parse bound source = .ok e) :
    ∃ phrase built, Phrase.read? source = some phrase ∧ phrase.build bound = .ok built ∧
      built.expr = e := by
  obtain ⟨_, _, hread⟩ := of_bind_eq_ok h
  split at hread
  · cases hread
  · rename_i phrase hphrase
    obtain ⟨built, hbuilt, -, hexpr⟩ := Built.of_settled_eq_ok hread
    cases hexpr
    exact ⟨phrase, built, hphrase, hbuilt, rfl⟩

/-- The tree of a source is at most `bound` high and within the length of the source. -/
theorem parse_fits {bound : Nat} {source : List Char} {e : Expr} (h : parse bound source = .ok e) :
    e.Fits (Text.byteLength source + 2) bound := by
  obtain ⟨phrase, built, hread, hbuilt, rfl⟩ := parse_eq_ok h
  have hsound := Phrase.build_sound (Phrase.within_of_read? hread) hbuilt
  exact hsound.fits hsound.le_bound

end Grammar

end EmbeddedExpr
