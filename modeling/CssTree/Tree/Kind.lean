namespace CssTree

/-- What a node stands for. -/
inductive NodeKind where
  | styleSheet
  | ruleList
  | rule
  | selectorList
  | selector
  | typeSelector
  | universalSelector
  | attributeSelector
  | classSelector
  | idSelector
  | pseudoSelector
  | combinator
  | declarationList
  | declaration
  | valueList
  | preservedToken
  | functionValue
  | blockValue
  | importantValue
  | mediaQueryList
  | charsetRule
  | customMediaRule
  | documentRule
  | fontFaceRule
  | hostRule
  | importRule
  | keyframesRule
  | keyframeRule
  | keyframeSelectorList
  | mediaRule
  | namespaceRule
  | pageRule
  | supportsRule
  | genericAtRule
  | error
deriving DecidableEq, Inhabited

namespace NodeKind

/-- The name under which a kind is reported. -/
def name : NodeKind → String
  | styleSheet => "StyleSheet"
  | ruleList => "RuleList"
  | rule => "Rule"
  | selectorList => "SelectorList"
  | selector => "Selector"
  | typeSelector => "TypeSelector"
  | universalSelector => "UniversalSelector"
  | attributeSelector => "AttributeSelector"
  | classSelector => "ClassSelector"
  | idSelector => "IdSelector"
  | pseudoSelector => "PseudoSelector"
  | combinator => "Combinator"
  | declarationList => "DeclarationList"
  | declaration => "Declaration"
  | valueList => "ComponentValueList"
  | preservedToken => "PreservedToken"
  | functionValue => "FunctionValue"
  | blockValue => "BlockValue"
  | importantValue => "ImportantValue"
  | mediaQueryList => "MediaQueryList"
  | charsetRule => "CharsetRule"
  | customMediaRule => "CustomMediaRule"
  | documentRule => "DocumentRule"
  | fontFaceRule => "FontFaceRule"
  | hostRule => "HostRule"
  | importRule => "ImportRule"
  | keyframesRule => "KeyframesRule"
  | keyframeRule => "KeyframeRule"
  | keyframeSelectorList => "KeyframeSelectorList"
  | mediaRule => "MediaRule"
  | namespaceRule => "NamespaceRule"
  | pageRule => "PageRule"
  | supportsRule => "SupportsRule"
  | genericAtRule => "GenericAtRule"
  | error => "Error"

/-- Kinds that start with an at-keyword. -/
def isAtRule : NodeKind → Bool
  | charsetRule | customMediaRule | documentRule | fontFaceRule | hostRule | importRule
  | keyframesRule | mediaRule | namespaceRule | pageRule | supportsRule | genericAtRule => true
  | _ => false

/-- Kinds that can be a part of a selector. -/
def isSelectorPart : NodeKind → Bool
  | typeSelector | universalSelector | attributeSelector | classSelector | idSelector
  | pseudoSelector | combinator => true
  | _ => false

instance : ToString NodeKind := ⟨name⟩

end NodeKind

end CssTree
