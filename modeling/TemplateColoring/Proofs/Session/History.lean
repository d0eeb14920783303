import Mathlib.Data.Set.Card
import TemplateColoring.Proofs.Session.Tally

/-!
# The cache is told by the calls made to it

A caller may keep tokens of its own under any key, forget all keys but some, and forget everything.
The tokens that are looked up under a key are then those of the last call that kept some there, if
nothing was done since that displaces them (`Session.Latest`), moved from where the text stood to
where it stands now. Nothing else about the calls counts: neither what was done to other keys, nor
tokens that were kept and replaced, nor calls that failed (`Session.find?_ofCalls`).
-/

set_option autoImplicit false

namespace TemplateColoring

open TemplateColoring.Span

/-! ## Entries of a list under a key -/

theorem lookup_filter_key {α β : Type} [BEq α] [LawfulBEq α] (p : α → Bool) (k : α)
    (entries : List (α × β)) :
    (entries.filter fun e => p e.1).lookup k = if p k then entries.lookup k else none := by
  induction entries with
  | nil => simp
  | cons e entries ih =>
      cases hp : p e.1 with
      | true =>
          rw [List.filter_cons_of_pos (by simpa using hp), List.lookup_cons, List.lookup_cons, ih]
          by_cases hk : k = e.1
          · simp [hk, hp]
          · simp [beq_false_of_ne hk]
      | false =>
          rw [List.filter_cons_of_neg (by simp [hp]), ih, List.lookup_cons]
          by_cases hk : k = e.1
          · simp [hk, hp]
          · simp [beq_false_of_ne hk]

/-! ## Entries of a cache -/

namespace TokenCache

variable {c : TokenCache} {key : CacheKey} {origin start : Nat} {tokens : List Token}

theorem insert?_eq (c : TokenCache) (key : CacheKey) (origin : Nat) (tokens : List Token) :
    c.insert? key origin tokens = if ∀ t ∈ tokens, origin ≤ t.start then
      .ok ⟨(key, tokens.map fun t => { t with start := t.start - origin }) ::
        c.entries.filter (·.1 != key)⟩ else .error .negative := by
  rw [insert?, relative?_eq]
  split <;> rfl

theorem find?_of_lookup_eq_none (h : c.entries.lookup key = none) (start : Nat) :
    c.find? key start = .ok none := by
  rw [find?, h]

/-- Where the last token stops, if there is such an offset; nothing stops at the start. -/
def lastStop? (tokens : List Token) : Except Offset.Fault Nat :=
  match tokens.getLast? with
  | some t => t.stop?
  | none => .ok 0

theorem find?_of_lookup {kept : List Token} {n : Nat} (h : c.entries.lookup key = some kept)
    (hstop : lastStop? kept = .ok n) (start : Nat) :
    c.find? key start =
      if n = key.length then (absolute? start kept).map some else .ok none := by
  have hanswer : (if n = key.length then (absolute? start kept).bind fun tokens =>
      .ok (some tokens) else .ok none) =
        if n = key.length then (absolute? start kept).map some else .ok none := by
    cases absolute? start kept <;> rfl
  simp only [find?, h]
  rw [← hanswer]
  cases hlast : kept.getLast? with
  | none =>
      rw [lastStop?, hlast] at hstop
      obtain rfl := Except.ok.inj hstop
      rfl
  | some t =>
      rw [lastStop?, hlast] at hstop
      have ht : t.stop? = .ok n := hstop
      simp only [ht]
      rfl

/-- Where the last token stops that is kept for a text at `origin`. -/
theorem lastStop?_moved (hfront : ∀ t ∈ tokens, origin ≤ t.start)
    (hfit : ∀ t ∈ tokens, t.stop ≤ Offset.max) :
    lastStop? (tokens.map fun t => { t with start := t.start - origin }) =
      .ok ((tokens.getLast?.map fun t => t.stop - origin).getD 0) := by
  rw [lastStop?, List.getLast?_map]
  cases hlast : tokens.getLast? with
  | none => rfl
  | some t =>
      have hle := hfront t (List.mem_of_getLast? hlast)
      have hmax := hfit t (List.mem_of_getLast? hlast)
      rw [stop] at hmax
      have hmoved : t.start - origin + t.length = t.stop - origin := by
        rw [stop]
        omega
      show Offset.add (t.start - origin) t.length = .ok (t.stop - origin)
      rw [Offset.add_eq_ok (by omega), hmoved]

theorem find?_of_lookup_eq_some
    (h : c.entries.lookup key = some (tokens.map fun t => { t with start := t.start - origin }))
    (hfront : ∀ t ∈ tokens, origin ≤ t.start) (hfit : ∀ t ∈ tokens, t.stop ≤ Offset.max)
    (start : Nat) : c.find? key start =
      if (tokens.getLast?.map fun t => t.stop - origin).getD 0 = key.length then
        if ∀ t ∈ tokens, t.start - origin + start ≤ Offset.max then
          .ok (some (tokens.map fun t => { t with start := t.start - origin + start }))
        else .error .tooLarge
      else .ok none := by
  rw [find?_of_lookup h (lastStop?_moved hfront hfit), absolute?_eq, List.map_map]
  simp only [List.forall_mem_map]
  split
  · split <;> rfl
  · rfl

end TokenCache

/-! ## Calls to the cache -/

/-- What a caller may do to the cache of a session. -/
inductive CacheCall
  | keep (key : CacheKey) (origin : Nat) (tokens : List Token)
  | retain (keys : List CacheKey)
  | clear
deriving DecidableEq, Repr

namespace CacheCall

/-- Whether a call keeps tokens under a key. Tokens in front of their text are not kept. -/
def Keeps (key : CacheKey) (origin : Nat) (tokens : List Token) (c : CacheCall) : Prop :=
  c = .keep key origin tokens ∧ ∀ t ∈ tokens, origin ≤ t.start

/-- Whether a call does away with the tokens under a key. -/
def Displaces (key : CacheKey) : CacheCall → Prop
  | .keep key' origin tokens => key' = key ∧ ∀ t ∈ tokens, origin ≤ t.start
  | .retain keys => key ∉ keys
  | .clear => True

/-- Whether the tokens of a call stop at offsets. -/
def Fits : CacheCall → Prop
  | .keep _ _ tokens => ∀ t ∈ tokens, t.stop ≤ Offset.max
  | .retain _ | .clear => True

end CacheCall

namespace Session

variable {calls : List CacheCall} {c : CacheCall} {key : CacheKey} {origin : Nat}
  {tokens kept : List Token}

/-- A session after a call. A call that fails changes nothing. -/
def call (s : Session) : CacheCall → Session
  | .keep key origin tokens =>
      match s.insert? key origin tokens with
      | .ok s' => s'
      | .error _ => s
  | .retain keys => s.retain keys
  | .clear => s.clear

/-- A fresh session after some calls, the first one first. -/
def ofCalls (calls : List CacheCall) : Session := calls.foldl call {}

/-- One of the calls kept these tokens under a key, and no later one displaced them. -/
def Latest (calls : List CacheCall) (key : CacheKey) (origin : Nat) (tokens : List Token) : Prop :=
  ∃ front c back, calls = front ++ c :: back ∧ c.Keeps key origin tokens ∧
    ∀ c' ∈ back, ¬c'.Displaces key

/-! ## One call -/

theorem insert?_of_front (s : Session) (key : CacheKey) (h : ∀ t ∈ tokens, origin ≤ t.start) :
    s.insert? key origin tokens = .ok { s with
      cache := ⟨(key, tokens.map fun t => { t with start := t.start - origin }) ::
        s.cache.entries.filter (·.1 != key)⟩ } := by
  rw [insert?, TokenCache.insert?_eq, if_pos h]
  rfl

theorem insert?_of_not_front (s : Session) (key : CacheKey)
    (h : ¬∀ t ∈ tokens, origin ≤ t.start) :
    s.insert? key origin tokens = .error .negative := by
  rw [insert?, TokenCache.insert?_eq, if_neg h]
  rfl

theorem call_of_not_front (s : Session) (key : CacheKey) (h : ¬∀ t ∈ tokens, origin ≤ t.start) :
    s.call (.keep key origin tokens) = s := by
  rw [call, insert?_of_not_front s key h]

/-- What a call keeps is found under its key. -/
theorem lookup_call_of_keeps (s : Session) (h : c.Keeps key origin tokens) :
    (s.call c).cache.entries.lookup key =
      some (tokens.map fun t => { t with start := t.start - origin }) := by
  obtain ⟨rfl, hfront⟩ := h
  rw [call, insert?_of_front s key hfront]
  exact List.lookup_cons_self

/-- What a call does not displace is found as before. -/
theorem lookup_call_of_not_displaces (s : Session) (h : ¬c.Displaces key) :
    (s.call c).cache.entries.lookup key = s.cache.entries.lookup key := by
  cases c with
  | keep key' origin tokens =>
      by_cases hfront : ∀ t ∈ tokens, origin ≤ t.start
      · have hkey : key ≠ key' := fun hkey => h ⟨hkey.symm, hfront⟩
        rw [call, insert?_of_front s key' hfront]
        simp only [List.lookup_cons, beq_false_of_ne hkey]
        rw [lookup_filter_key (fun k => k != key'), if_pos (bne_iff_ne.mpr hkey)]
      · rw [call_of_not_front s key' hfront]
  | retain keys =>
      have hkey : keys.contains key = true := List.contains_iff_mem.mpr (not_not.mp h)
      show (s.cache.entries.filter fun e => keys.contains e.1).lookup key = _
      rw [lookup_filter_key (fun k => keys.contains k), if_pos hkey]
  | clear => exact absurd trivial h

/-- Where a call displaces tokens and keeps none, nothing is found. -/
theorem lookup_call_of_displaces (s : Session) (h : c.Displaces key)
    (hkeeps : ∀ origin tokens, ¬c.Keeps key origin tokens) :
    (s.call c).cache.entries.lookup key = none := by
  cases c with
  | keep key' origin tokens =>
      obtain ⟨rfl, hfront⟩ := h
      exact absurd ⟨rfl, hfront⟩ (hkeeps origin tokens)
  | retain keys =>
      have hkey : ¬keys.contains key = true := fun hmem => h (List.contains_iff_mem.mp hmem)
      show (s.cache.entries.filter fun e => keys.contains e.1).lookup key = none
      rw [lookup_filter_key (fun k => keys.contains k), if_neg hkey]
  | clear => rfl

theorem nodup_keys_call {s : Session} (h : s.cache.keys.Nodup) (c : CacheCall) :
    (s.call c).cache.keys.Nodup := by
  cases c with
  | keep key origin tokens =>
      by_cases hfront : ∀ t ∈ tokens, origin ≤ t.start
      · rw [call, insert?_of_front s key hfront]
        refine List.nodup_cons.mpr ⟨?_, TokenCache.nodup_filter h⟩
        simp only [List.mem_map, List.mem_filter, bne_iff_ne, not_exists, not_and]
        intro e he heq
        exact he.2 heq
      · rwa [call_of_not_front s key hfront]
  | retain keys => exact TokenCache.nodup_filter h
  | clear => exact List.nodup_nil

/-! ## All calls -/

theorem ofCalls_concat (calls : List CacheCall) (c : CacheCall) :
    ofCalls (calls ++ [c]) = (ofCalls calls).call c :=
  List.foldl_concat call {} c calls

theorem latest_concat : Latest (calls ++ [c]) key origin tokens ↔
    c.Keeps key origin tokens ∨ ¬c.Displaces key ∧ Latest calls key origin tokens := by
  constructor
  · rintro ⟨front, c', back, hcalls, hkeeps, hback⟩
    rcases List.eq_nil_or_concat back with rfl | ⟨back, d, rfl⟩
    · obtain ⟨-, hc⟩ := List.append_inj' hcalls rfl
      obtain rfl := List.singleton_inj.mp hc
      exact .inl hkeeps
    · rw [List.concat_eq_append, ← List.cons_append, ← List.append_assoc] at hcalls
      obtain ⟨hinit, hc⟩ := List.append_inj' hcalls rfl
      obtain rfl := List.singleton_inj.mp hc
      rw [List.concat_eq_append] at hback
      exact .inr ⟨hback c (by simp), front, c', back, hinit, hkeeps, fun d hd =>
        hback d (List.mem_append_left [c] hd)⟩
  · rintro (hkeeps | ⟨hdisplaces, front, c', back, rfl, hkeeps, hback⟩)
    · exact ⟨calls, c, [], rfl, hkeeps, by simp⟩
    · refine ⟨front, c', back ++ [c], by simp, hkeeps, ?_⟩
      intro d hd
      rcases List.mem_append.mp hd with hd | hd
      · exact hback d hd
      · rwa [List.mem_singleton.mp hd]

theorem Latest.front (h : Latest calls key origin tokens) : ∀ t ∈ tokens, origin ≤ t.start := by
  obtain ⟨-, c, -, -, hkeeps, -⟩ := h
  exact hkeeps.2

theorem Latest.mem (h : Latest calls key origin tokens) : .keep key origin tokens ∈ calls := by
  obtain ⟨front, c, back, rfl, ⟨rfl, -⟩, -⟩ := h
  simp

/-- **The entries of the cache are what the calls kept last.** -/
theorem lookup_ofCalls_eq_some_iff (calls : List CacheCall) (key : CacheKey) (kept : List Token) :
    (ofCalls calls).cache.entries.lookup key = some kept ↔
      ∃ origin tokens, Latest calls key origin tokens ∧
        kept = tokens.map fun t => { t with start := t.start - origin } := by
  induction calls using List.reverseRecOn with
  | nil =>
      constructor
      · intro h
        exact absurd h (by simp [ofCalls, TokenCache.empty])
      · rintro ⟨origin, tokens, ⟨front, c, back, h, -⟩, -⟩
        exact absurd h (by simp)
  | append_singleton calls c ih =>
      rw [ofCalls_concat]
      simp only [latest_concat]
      by_cases hkeeps : ∃ origin tokens, c.Keeps key origin tokens
      · obtain ⟨origin, tokens, hkeeps⟩ := hkeeps
        rw [lookup_call_of_keeps _ hkeeps]
        obtain ⟨rfl, hfront⟩ := hkeeps
        constructor
        · rintro ⟨⟩
          exact ⟨origin, tokens, .inl ⟨rfl, hfront⟩, rfl⟩
        · rintro ⟨origin', tokens', ⟨hsame, -⟩ | ⟨hdisplaces, -⟩, rfl⟩
          · obtain ⟨-, rfl, rfl⟩ := CacheCall.keep.inj hsame
            rfl
          · exact absurd ⟨rfl, hfront⟩ hdisplaces
      · have hnone : ∀ origin tokens, ¬c.Keeps key origin tokens := by
          intro origin tokens h
          exact hkeeps ⟨origin, tokens, h⟩
        by_cases hdisplaces : c.Displaces key
        · simp [lookup_call_of_displaces _ hdisplaces hnone, hnone, hdisplaces]
        · simp [lookup_call_of_not_displaces _ hdisplaces, hnone, hdisplaces, ih]

theorem nodup_keys_ofCalls (calls : List CacheCall) : (ofCalls calls).cache.keys.Nodup := by
  induction calls using List.reverseRecOn with
  | nil => exact List.nodup_nil
  | append_singleton calls c ih =>
      rw [ofCalls_concat]
      exact nodup_keys_call ih c

/-- The keys of the cache are those under which some call was the latest. -/
theorem mem_keys_ofCalls : key ∈ (ofCalls calls).cache.keys ↔
    ∃ origin tokens, Latest calls key origin tokens := by
  rw [← TokenCache.isSome_lookup_iff, Option.isSome_iff_exists]
  constructor
  · rintro ⟨kept, hkept⟩
    obtain ⟨origin, tokens, hlatest, -⟩ := (lookup_ofCalls_eq_some_iff calls key kept).mp hkept
    exact ⟨origin, tokens, hlatest⟩
  · rintro ⟨origin, tokens, hlatest⟩
    exact ⟨_, (lookup_ofCalls_eq_some_iff calls key _).mpr ⟨origin, tokens, hlatest, rfl⟩⟩

/-- **The cache is a map that is told by the calls made to it.** After any calls, nothing is found
under a key that no call was the latest for. Otherwise the tokens of the latest call are found,
moved from the text they were kept for to the text they are wanted for, unless they do not end
where the length in the key says, or there are no offsets for them where they are moved to. A call
fails just if one of its tokens starts in front of its text, and then leaves the session as it was.
The cache has as many entries as there are keys with a latest call. -/
theorem find?_ofCalls (calls : List CacheCall) (hfit : ∀ c ∈ calls, c.Fits) :
    (∀ key, (¬∃ origin tokens, Latest calls key origin tokens) →
      ∀ start, (ofCalls calls).cache.find? key start = .ok none) ∧
    (∀ key origin tokens, Latest calls key origin tokens → ∀ start,
      (ofCalls calls).cache.find? key start =
        if (tokens.getLast?.map fun t => t.stop - origin).getD 0 = key.length then
          if ∀ t ∈ tokens, t.start - origin + start ≤ Offset.max then
            .ok (some (tokens.map fun t => { t with start := t.start - origin + start }))
          else .error .tooLarge
        else .ok none) ∧
    (∀ key origin tokens,
      ((∀ t ∈ tokens, origin ≤ t.start) →
        ∃ s, (ofCalls calls).insert? key origin tokens = .ok s) ∧
      ((∃ t ∈ tokens, t.start < origin) →
        (ofCalls calls).insert? key origin tokens = .error .negative ∧
          ofCalls (calls ++ [.keep key origin tokens]) = ofCalls calls)) ∧
    Set.encard {key | ∃ origin tokens, Latest calls key origin tokens} =
      (ofCalls calls).cache.size := by
  refine ⟨?_, ?_, ?_, ?_⟩
  · intro key hnone start
    refine TokenCache.find?_of_lookup_eq_none ?_ start
    rw [Option.eq_none_iff_forall_ne_some]
    intro kept hkept
    obtain ⟨origin, tokens, hlatest, -⟩ := (lookup_ofCalls_eq_some_iff calls key kept).mp hkept
    exact hnone ⟨origin, tokens, hlatest⟩
  · intro key origin tokens hlatest start
    have hlookup := (lookup_ofCalls_eq_some_iff calls key _).mpr ⟨origin, tokens, hlatest, rfl⟩
    exact TokenCache.find?_of_lookup_eq_some hlookup hlatest.front (hfit _ hlatest.mem) start
  · intro key origin tokens
    refine ⟨fun hfront => ⟨_, insert?_of_front _ key hfront⟩, ?_⟩
    rintro ⟨t, ht, hlt⟩
    have hfront : ¬∀ t ∈ tokens, origin ≤ t.start := fun h => Nat.not_le.mpr hlt (h t ht)
    rw [ofCalls_concat, call_of_not_front _ key hfront]
    exact ⟨insert?_of_not_front _ key hfront, rfl⟩
  · have hkeys : {key | ∃ origin tokens, Latest calls key origin tokens} =
        ((ofCalls calls).cache.keys.toFinset : Set CacheKey) := by
      ext key
      rw [List.coe_toFinset]
      exact mem_keys_ofCalls.symm
    rw [hkeys, Set.encard_coe_eq_coe_finsetCard,
      List.toFinset_card_of_nodup (nodup_keys_ofCalls calls), ← TokenCache.size_eq_length_keys]

/-- The first tokens are replaced, and the second ones are left alone by a call that forgets other
keys and by one that fails. -/
theorem find?_ofCalls_replaced :
    (∀ c ∈ [CacheCall.keep ⟨.plain, 3, []⟩ 3 [⟨.text, 3, 3⟩],
        .keep ⟨.plain, 3, []⟩ 5 [⟨.variable, 5, 1⟩, ⟨.other, 6, 2⟩], .retain [⟨.plain, 3, []⟩],
        .keep ⟨.plain, 3, []⟩ 9 [⟨.text, 8, 3⟩]], c.Fits) ∧
      (ofCalls [.keep ⟨.plain, 3, []⟩ 3 [⟨.text, 3, 3⟩],
        .keep ⟨.plain, 3, []⟩ 5 [⟨.variable, 5, 1⟩, ⟨.other, 6, 2⟩], .retain [⟨.plain, 3, []⟩],
        .keep ⟨.plain, 3, []⟩ 9 [⟨.text, 8, 3⟩]]).cache.find? ⟨.plain, 3, []⟩ 0 =
          .ok (some [⟨.variable, 0, 1⟩, ⟨.other, 1, 2⟩]) := by
  have hfit : ∀ c ∈ [CacheCall.keep ⟨.plain, 3, []⟩ 3 [⟨.text, 3, 3⟩],
      .keep ⟨.plain, 3, []⟩ 5 [⟨.variable, 5, 1⟩, ⟨.other, 6, 2⟩], .retain [⟨.plain, 3, []⟩],
      .keep ⟨.plain, 3, []⟩ 9 [⟨.text, 8, 3⟩]], c.Fits := by
    simp [CacheCall.Fits, stop, Offset.max]
  obtain ⟨-, hfound, -⟩ := find?_ofCalls _ hfit
  refine ⟨hfit, ?_⟩
  rw [hfound ⟨.plain, 3, []⟩ 5 [⟨.variable, 5, 1⟩, ⟨.other, 6, 2⟩]
    ⟨[_], _, [_, _], rfl, ⟨rfl, by simp⟩, by simp [CacheCall.Displaces]⟩]
  decide

end Session

end TemplateColoring
