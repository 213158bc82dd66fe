/-
The named character references of HTML.

The table is kept as lines of entries with a blank between two, in the order of the
characters.
-/
import ReactiveMarkup.Text.Ranges

namespace ReactiveMarkup.Html

open Text

/-- Names with their characters, after the code `last`. An entry says how far a code is from the one
before it, unless it is the next; then it lists the names, and the code of a second character if
any. -/
def referencesAfter : Nat → List (List Char) → List (List Char × List Char)
  | _, [] => []
  | last, entry :: rest =>
    let (distance, names) :=
      if entry.contains '=' then
        (hexNumber (entry.takeWhile (· != '=')), (entry.dropWhile (· != '=')).drop 1)
      else (1, entry)
    let more := ((splitBy (· == '+') names).drop 1).map hexNumber
    let chars := ((last + distance) :: more).map Char.ofNat
    (splitBy (· == ',') (names.takeWhile (· != '+'))).map (·, chars) ++
      referencesAfter (last + distance) rest

/-- Old names, which need no semicolon, are marked. -/
def markedReferences : List (List Char × List Char) := referencesAfter 0 <| tableEntries [
  "9=Tab NewLine 17=excl QUOT!,quot! num dollar percnt AMP!,amp! apos lpar rpar ast,midast plus",
  "comma 2=period sol b=colon semi LT!,lt! 0=nvlt+20d2 equals 0=bne+20e5 GT!,gt! 0=nvgt+20d2 quest",
  "commat 1b=lbrack,lsqb bsol rbrack,rsqb Hat UnderBar,lowbar DiacriticalGrave,grave 6=fjlig+6a",
  "15=lbrace,lcub VerticalLine,verbar,vert rbrace,rcub 23=NonBreakingSpace,nbsp! iexcl! cent!",
  "pound! curren! yen! brvbar! sect! Dot,DoubleDot,die,uml! COPY!,copy! ordf! laquo! not! shy!",
  "REG!,circledR,reg! macr!,strns deg! PlusMinus,plusmn!,pm sup2! sup3! DiacriticalAcute,acute!",
  "micro! para! CenterDot,centerdot,middot! Cedilla,cedil! sup1! ordm! raquo! frac14! frac12!,half",
  "frac34! iquest! Agrave! Aacute! Acirc! Atilde! Auml! Aring!,angst AElig! Ccedil! Egrave!",
  "Eacute! Ecirc! Euml! Igrave! Iacute! Icirc! Iuml! ETH! Ntilde! Ograve! Oacute! Ocirc! Otilde!",
  "Ouml! times! Oslash! Ugrave! Uacute! Ucirc! Uuml! Yacute! THORN! szlig! agrave! aacute! acirc!",
  "atilde! auml! aring! aelig! ccedil! egrave! eacute! ecirc! euml! igrave! iacute! icirc! iuml!",
  "eth! ntilde! ograve! oacute! ocirc! otilde! ouml! div,divide! oslash! ugrave! uacute! ucirc!",
  "uuml! yacute! thorn! yuml! Amacr amacr Abreve abreve Aogon aogon Cacute cacute Ccirc ccirc Cdot",
  "cdot Ccaron ccaron Dcaron dcaron Dstrok dstrok Emacr emacr 3=Edot edot Eogon eogon Ecaron",
  "ecaron Gcirc gcirc Gbreve gbreve Gdot gdot Gcedil 2=Hcirc hcirc Hstrok hstrok Itilde itilde",
  "Imacr imacr 3=Iogon iogon Idot imath,inodot IJlig ijlig Jcirc jcirc Kcedil kcedil kgreen Lacute",
  "lacute Lcedil lcedil Lcaron lcaron Lmidot lmidot Lstrok lstrok Nacute nacute Ncedil ncedil",
  "Ncaron ncaron napos ENG eng Omacr omacr 3=Odblac odblac OElig oelig Racute racute Rcedil rcedil",
  "Rcaron rcaron Sacute sacute Scirc scirc Scedil scedil Scaron scaron Tcedil tcedil Tcaron tcaron",
  "Tstrok tstrok Utilde utilde Umacr umacr Ubreve ubreve Uring uring Udblac udblac Uogon uogon",
  "Wcirc wcirc Ycirc ycirc Yuml Zacute zacute Zdot zdot Zcaron zcaron 14=fnof 23=imped 40=gacute",
  "42=jmath 8f=circ Hacek,caron 11=Breve,breve DiacriticalDot,dot ring ogon DiacriticalTilde,tilde",
  "DiacriticalDoubleAcute,dblac 34=DownBreve 80=Alpha Beta Gamma Delta Epsilon Zeta Eta Theta Iota",
  "Kappa Lambda Mu Nu Xi Omicron Pi Rho 2=Sigma Tau Upsilon Phi Chi Psi Omega,ohm 8=alpha beta",
  "gamma delta epsi,epsilon zeta eta theta iota kappa lambda mu nu xi omicron pi rho",
  "sigmaf,sigmav,varsigma sigma tau upsi,upsilon phi chi psi omega 8=thetasym,thetav,vartheta",
  "Upsi,upsih 3=phiv,straightphi,varphi piv,varpi 6=Gammad digamma,gammad 13=kappav,varkappa",
  "rhov,varrho 4=epsiv,straightepsilon,varepsilon backepsilon,bepsi b=IOcy DJcy GJcy Jukcy DScy",
  "Iukcy YIcy Jsercy LJcy NJcy TSHcy KJcy 2=Ubrcy DZcy Acy Bcy Vcy Gcy Dcy IEcy ZHcy Zcy Icy Jcy",
  "Kcy Lcy Mcy Ncy Ocy Pcy Rcy Scy Tcy Ucy Fcy KHcy TScy CHcy SHcy SHCHcy HARDcy Ycy SOFTcy Ecy",
  "YUcy YAcy acy bcy vcy gcy dcy iecy zhcy zcy icy jcy kcy lcy mcy ncy ocy pcy rcy scy tcy ucy fcy",
  "khcy tscy chcy shcy shchcy hardcy ycy softcy ecy yucy yacy 2=iocy djcy gjcy jukcy dscy iukcy",
  "yicy jsercy ljcy njcy tshcy kjcy 2=ubrcy dzcy 1ba3=ensp emsp emsp13 emsp14 2=numsp puncsp",
  "ThinSpace,thinsp VeryThinSpace,hairsp",
  "NegativeMediumSpace,NegativeThickSpace,NegativeThinSpace,NegativeVeryThinSpace,ZeroWidthSpace",
  "zwnj zwj lrm rlm dash,hyphen 3=ndash mdash horbar Verbar,Vert 2=OpenCurlyQuote,lsquo",
  "CloseCurlyQuote,rsquo,rsquor lsquor,sbquo 2=OpenCurlyDoubleQuote,ldquo",
  "CloseCurlyDoubleQuote,rdquo,rdquor bdquo,ldquor 2=dagger Dagger,ddagger bull,bullet 3=nldr",
  "hellip,mldr a=permil pertenk prime Prime tprime backprime,bprime 4=lsaquo rsaquo",
  "4=OverBar,oline 3=caret 2=hybull frasl b=bsemi 8=qprime 8=MediumSpace 0=ThickSpace+200a NoBreak",
  "ApplyFunction,af InvisibleTimes,it InvisibleComma,ic 49=euro 2f=TripleDot,tdot DotDot",
  "26=Copf,complexes 3=incare 5=gscr HilbertSpace,Hscr,hamilt Hfr,Poincareplane Hopf,quaternions",
  "planckh hbar,hslash,planck,plankv Iscr,imagline Ifr,Im,image,imagpart Laplacetrf,Lscr,lagran",
  "ell 2=Nopf,naturals numero copysr weierp,wp Popf,primes Qopf,rationals Rscr,realine",
  "Re,Rfr,real,realpart Ropf,reals rx 4=TRADE,trade 2=Zopf,integers 3=mho Zfr,zeetrf iiota",
  "3=Bernoullis,Bscr,bernou Cayleys,Cfr 2=escr Escr,expectation Fouriertrf,Fscr",
  "2=Mellintrf,Mscr,phmmat order,orderof,oscr alefsym,aleph beth gimel daleth",
  "d=CapitalDifferentialD,DD DifferentialD,dd ExponentialE,ee,exponentiale ImaginaryI,ii b=frac13",
  "frac23 frac15 frac25 frac35 frac45 frac16 frac56 frac18 frac38 frac58 frac78",
  "32=LeftArrow,ShortLeftArrow,larr,leftarrow,slarr ShortUpArrow,UpArrow,uarr,uparrow",
  "RightArrow,ShortRightArrow,rarr,rightarrow,srarr DownArrow,ShortDownArrow,darr,downarrow",
  "LeftRightArrow,harr,leftrightarrow UpDownArrow,updownarrow,varr UpperLeftArrow,nwarr,nwarrow",
  "UpperRightArrow,nearr,nearrow LowerRightArrow,searr,searrow LowerLeftArrow,swarr,swarrow",
  "nlarr,nleftarrow nrarr,nrightarrow 2=rarrw,rightsquigarrow 0=nrarrw+338 Larr,twoheadleftarrow",
  "Uarr Rarr,twoheadrightarrow Darr larrtl,leftarrowtail rarrtl,rightarrowtail",
  "LeftTeeArrow,mapstoleft UpTeeArrow,mapstoup RightTeeArrow,map,mapsto DownTeeArrow,mapstodown",
  "2=hookleftarrow,larrhk hookrightarrow,rarrhk larrlp,looparrowleft looparrowright,rarrlp",
  "harrw,leftrightsquigarrow nharr,nleftrightarrow 2=Lsh,lsh Rsh,rsh ldsh rdsh 2=crarr",
  "cularr,curvearrowleft curarr,curvearrowright 3=circlearrowleft,olarr circlearrowright,orarr",
  "LeftVector,leftharpoonup,lharu DownLeftVector,leftharpoondown,lhard",
  "RightUpVector,uharr,upharpoonright LeftUpVector,uharl,upharpoonleft",
  "RightVector,rharu,rightharpoonup DownRightVector,rhard,rightharpoondown",
  "RightDownVector,dharr,downharpoonright LeftDownVector,dharl,downharpoonleft",
  "RightArrowLeftArrow,rightleftarrows,rlarr UpArrowDownArrow,udarr",
  "LeftArrowRightArrow,leftrightarrows,lrarr leftleftarrows,llarr upuparrows,uuarr",
  "rightrightarrows,rrarr ddarr,downdownarrows ReverseEquilibrium,leftrightharpoons,lrhar",
  "Equilibrium,rightleftharpoons,rlhar nLeftarrow,nlArr nLeftrightarrow,nhArr nRightarrow,nrArr",
  "DoubleLeftArrow,Leftarrow,lArr DoubleUpArrow,Uparrow,uArr",
  "DoubleRightArrow,Implies,Rightarrow,rArr DoubleDownArrow,Downarrow,dArr",
  "DoubleLeftRightArrow,Leftrightarrow,hArr,iff DoubleUpDownArrow,Updownarrow,vArr nwArr neArr",
  "seArr swArr Lleftarrow,lAarr Rrightarrow,rAarr 2=zigrarr 7=LeftArrowBar,larrb",
  "RightArrowBar,rarrb 10=DownArrowUpArrow,duarr 8=loarr roarr hoarr ForAll,forall comp,complement",
  "PartialD,part 0=npart+338 Exists,exist NotExists,nexist,nexists",
  "empty,emptyset,emptyv,varnothing 2=Del,nabla Element,in,isin,isinv NotElement,notin,notinva",
  "2=ReverseElement,SuchThat,ni,niv NotReverseElement,notni,notniva 3=Product,prod",
  "Coproduct,coprod Sum,sum minus MinusPlus,mnplus,mp dotplus,plusdo",
  "2=Backslash,setminus,setmn,smallsetminus,ssetmn lowast SmallCircle,compfn 2=Sqrt,radic",
  "3=Proportional,prop,propto,varpropto,vprop infin angrt ang,angle 0=nang+20d2",
  "angmsd,measuredangle angsph VerticalBar,mid,shortmid,smid NotVerticalBar,nmid,nshortmid,nsmid",
  "DoubleVerticalBar,par,parallel,shortparallel,spar",
  "NotDoubleVerticalBar,npar,nparallel,nshortparallel,nspar and,wedge or,vee cap 0=caps+fe00 cup",
  "0=cups+fe00 Integral,int Int iiint,tint ContourIntegral,conint,oint",
  "Conint,DoubleContourIntegral Cconint cwint ClockwiseContourIntegral,cwconint",
  "CounterClockwiseContourIntegral,awconint Therefore,there4,therefore Because,becaus,because",
  "ratio Colon,Proportion dotminus,minusd 2=mDDot homtht Tilde,sim,thicksim,thksim 0=nvsim+20d2",
  "backsim,bsim 0=race+331 ac,mstpos 0=acE+333 acd VerticalTilde,wr,wreath NotTilde,nsim",
  "EqualTilde,eqsim,esim 0=NotEqualTilde,nesim+338 TildeEqual,sime,simeq",
  "NotTildeEqual,nsime,nsimeq TildeFullEqual,cong simne NotTildeFullEqual,ncong",
  "TildeTilde,ap,approx,asymp,thickapprox,thkap NotTildeTilde,nap,napprox ape,approxeq apid",
  "0=napid+338 backcong,bcong CupCap,asympeq 0=nvap+20d2 Bumpeq,HumpDownHump,bump",
  "0=NotHumpDownHump,nbump+338 HumpEqual,bumpe,bumpeq 0=NotHumpEqual,nbumpe+338",
  "DotEqual,doteq,esdot 0=nedot+338 doteqdot,eDot efDot,fallingdotseq erDot,risingdotseq",
  "Assign,colone,coloneq ecolon,eqcolon ecir,eqcirc circeq,cire 2=wedgeq veeeq 2=triangleq,trie",
  "3=equest,questeq NotEqual,ne Congruent,equiv 0=bnequiv+20e5 NotCongruent,nequiv 2=le,leq",
  "0=nvle+20d2 GreaterEqual,ge,geq 0=nvge+20d2 LessFullEqual,lE,leqq 0=nlE,nleqq+338",
  "GreaterFullEqual,gE,geqq 0=NotGreaterFullEqual,ngE,ngeqq+338 lnE,lneqq 0=lvertneqq,lvnE+fe00",
  "gnE,gneqq 0=gvertneqq,gvnE+fe00 Lt,NestedLessLess,ll 0=NotLessLess,nLtv+338 0=nLt+20d2",
  "Gt,NestedGreaterGreater,gg 0=NotGreaterGreater,nGtv+338 0=nGt+20d2 between,twixt NotCupCap",
  "NotLess,nless,nlt NotGreater,ngt,ngtr NotLessEqual,nle,nleq NotGreaterEqual,nge,ngeq",
  "LessTilde,lesssim,lsim GreaterTilde,gsim,gtrsim NotLessTilde,nlsim NotGreaterTilde,ngsim",
  "LessGreater,lessgtr,lg GreaterLess,gl,gtrless NotLessGreater,ntlg NotGreaterLess,ntgl",
  "Precedes,pr,prec Succeeds,sc,succ PrecedesSlantEqual,prcue,preccurlyeq",
  "SucceedsSlantEqual,sccue,succcurlyeq PrecedesTilde,precsim,prsim SucceedsTilde,scsim,succsim",
  "0=NotSucceedsTilde+338 NotPrecedes,npr,nprec NotSucceeds,nsc,nsucc sub,subset",
  "0=NotSubset,nsubset,vnsub+20d2 Superset,sup,supset 0=NotSuperset,nsupset,vnsup+20d2 nsub nsup",
  "SubsetEqual,sube,subseteq SupersetEqual,supe,supseteq NotSubsetEqual,nsube,nsubseteq",
  "NotSupersetEqual,nsupe,nsupseteq subne,subsetneq 0=varsubsetneq,vsubne+fe00 supne,supsetneq",
  "0=varsupsetneq,vsupne+fe00 2=cupdot UnionPlus,uplus SquareSubset,sqsub,sqsubset",
  "0=NotSquareSubset+338 SquareSuperset,sqsup,sqsupset 0=NotSquareSuperset+338",
  "SquareSubsetEqual,sqsube,sqsubseteq SquareSupersetEqual,sqsupe,sqsupseteq",
  "SquareIntersection,sqcap 0=sqcaps+fe00 SquareUnion,sqcup 0=sqcups+fe00 CirclePlus,oplus",
  "CircleMinus,ominus CircleTimes,otimes osol CircleDot,odot circledcirc,ocir circledast,oast",
  "2=circleddash,odash boxplus,plusb boxminus,minusb boxtimes,timesb dotsquare,sdotb",
  "RightTee,vdash LeftTee,dashv DownTee,top UpTee,bot,bottom,perp 2=models DoubleRightTee,vDash",
  "Vdash Vvdash VDash nvdash nvDash nVdash nVDash prurel 2=LeftTriangle,vartriangleleft,vltri",
  "RightTriangle,vartriangleright,vrtri LeftTriangleEqual,ltrie,trianglelefteq 0=nvltrie+20d2",
  "RightTriangleEqual,rtrie,trianglerighteq 0=nvrtrie+20d2 origof imof multimap,mumap hercon",
  "intcal,intercal veebar 2=barvee angrtvb lrtri Wedge,bigwedge,xwedge Vee,bigvee,xvee",
  "Intersection,bigcap,xcap Union,bigcup,xcup Diamond,diam,diamond sdot Star,sstarf",
  "divideontimes,divonx bowtie ltimes rtimes leftthreetimes,lthree rightthreetimes,rthree",
  "backsimeq,bsime curlyvee,cuvee curlywedge,cuwed Sub,Subset Sup,Supset Cap Cup fork,pitchfork",
  "epar lessdot,ltdot gtdot,gtrdot Ll 0=nLl+338 Gg,ggg 0=nGg+338 LessEqualGreater,leg,lesseqgtr",
  "0=lesg+fe00 GreaterEqualLess,gel,gtreqless 0=gesl+fe00 3=cuepr,curlyeqprec cuesc,curlyeqsucc",
  "NotPrecedesSlantEqual,nprcue NotSucceedsSlantEqual,nsccue NotSquareSubsetEqual,nsqsube",
  "NotSquareSupersetEqual,nsqsupe 3=lnsim gnsim precnsim,prnsim scnsim,succnsim",
  "NotLeftTriangle,nltri,ntriangleleft NotRightTriangle,nrtri,ntriangleright",
  "NotLeftTriangleEqual,nltrie,ntrianglelefteq NotRightTriangleEqual,nrtrie,ntrianglerighteq",
  "vellip ctdot utdot dtdot disin isinsv isins isindot 0=notindot+338 notinvc notinvb 2=isinE",
  "0=notinE+338 nisd xnis nis notnivc notnivb 7=barwed,barwedge Barwed,doublebarwedge",
  "2=LeftCeiling,lceil RightCeiling,rceil LeftFloor,lfloor RightFloor,rfloor drcrop dlcrop urcrop",
  "ulcrop bnot 2=profline profsurf 2=telrec target 6=ulcorn,ulcorner urcorn,urcorner",
  "dlcorn,llcorner drcorn,lrcorner 3=frown,sfrown smile,ssmile a=cylcty profalar 8=topbot 7=ovbar",
  "2=solbar 3d=angzarr 34=lmoust,lmoustache rmoust,rmoustache 3=OverBracket,tbrk UnderBracket,bbrk",
  "bbrktbrk 26=OverParenthesis UnderParenthesis OverBrace UnderBrace 3=trpezium 5=elinters",
  "3c=blank a5=circledS,oS 38=HorizontalLine,boxh 2=boxv a=boxdr 4=boxdl 4=boxur 4=boxul 4=boxvr",
  "8=boxvl 8=boxhd 8=boxhu 8=boxvh 14=boxH boxV boxdR boxDr boxDR boxdL boxDl boxDL boxuR boxUr",
  "boxUR boxuL boxUl boxUL boxvR boxVr boxVR boxvL boxVl boxVL boxHd boxhD boxHD boxHu boxhU boxHU",
  "boxvH boxVh boxVH 14=uhblk 4=lhblk 4=block 9=blk14 blk12 blk34 e=Square,squ,square",
  "9=FilledVerySmallSquare,blacksquare,squarf,squf EmptyVerySmallSquare 2=rect marker 3=fltns",
  "2=bigtriangleup,xutri blacktriangle,utrif triangle,utri 3=blacktriangleright,rtrif",
  "rtri,triangleright 4=bigtriangledown,xdtri blacktriangledown,dtrif dtri,triangledown",
  "3=blacktriangleleft,ltrif ltri,triangleleft 7=loz,lozenge cir 21=tridot 3=bigcirc,xcirc 9=ultri",
  "urtri lltri EmptySmallSquare FilledSmallSquare 9=bigstar,starf star 8=phone 32=female 2=male",
  "1e=spades,spadesuit 3=clubs,clubsuit 2=hearts,heartsuit diamondsuit,diams 4=sung 3=flat",
  "natur,natural sharp a4=check,checkmark 4=cross 9=malt,maltese 16=sext 22=VerticalSeparator",
  "1a=lbbrk rbbrk 55=bsolhsub suphsol 1d=LeftDoubleBracket,lobrk RightDoubleBracket,robrk",
  "LeftAngleBracket,lang,langle RightAngleBracket,rang,rangle Lang Rang loang roang",
  "8=LongLeftArrow,longleftarrow,xlarr LongRightArrow,longrightarrow,xrarr",
  "LongLeftRightArrow,longleftrightarrow,xharr DoubleLongLeftArrow,Longleftarrow,xlArr",
  "DoubleLongRightArrow,Longrightarrow,xrArr DoubleLongLeftRightArrow,Longleftrightarrow,xhArr",
  "2=longmapsto,xmap 3=dzigrarr 103=nvlArr nvrArr nvHarr Map 7=lbarr bkarow,rbarr lBarr",
  "dbkarow,rBarr RBarr,drbkarow DDotrahd UpArrowBar DownArrowBar 3=Rarrtl 3=latail ratail lAtail",
  "rAtail larrfs rarrfs larrbfs rarrbfs 3=nwarhk nearhk hksearow,searhk hkswarow,swarhk nwnear",
  "nesear,toea seswar,tosa swnwar 9=rarrc 0=nrarrc+338 2=cudarrr ldca rdca cudarrl larrpl",
  "3=curarrm cularrp 8=rarrpl 3=harrcir Uarrocir lurdshar ldrushar 3=LeftRightVector",
  "RightUpDownVector DownLeftRightVector LeftUpDownVector LeftVectorBar RightVectorBar",
  "RightUpVectorBar RightDownVectorBar DownLeftVectorBar DownRightVectorBar LeftUpVectorBar",
  "LeftDownVectorBar LeftTeeVector RightTeeVector RightUpTeeVector RightDownTeeVector",
  "DownLeftTeeVector DownRightTeeVector LeftUpTeeVector LeftDownTeeVector lHar uHar rHar dHar",
  "luruhar ldrdhar ruluhar rdldhar lharul llhard rharul lrhard UpEquilibrium,udhar",
  "ReverseUpEquilibrium,duhar RoundImplies erarr simrarr larrsim rarrsim rarrap ltlarr 2=gtrarr",
  "subrarr 2=suplarr lfisht rfisht ufisht dfisht 6=lopar ropar 5=lbrke rbrke lbrkslu rbrksld",
  "lbrksld rbrkslu langd rangd lparlt rpargt gtlPar ltrPar 4=vzigzag 2=vangrt angrtvbd 7=ange",
  "range dwangle uwangle angmsdaa angmsdab angmsdac angmsdad angmsdae angmsdaf angmsdag angmsdah",
  "bemptyv demptyv cemptyv raemptyv laemptyv ohbar omid opar 2=operp 2=olcross odsold 2=olcir",
  "ofcir olt ogt cirscir cirE solb bsolb 4=boxbox 4=trisb rtriltri LeftTriangleBar",
  "0=NotLeftTriangleBar+338 RightTriangleBar 0=NotRightTriangleBar+338 c=iinfin infintie nvinfin",
  "5=eparsl smeparsl eqvparsl 6=blacklozenge,lozf 9=RuleDelayed 2=dsol a=bigodot,xodot",
  "bigoplus,xoplus bigotimes,xotime 2=biguplus,xuplus 2=bigsqcup,xsqcup 6=iiiint,qint fpartint",
  "3=cirfnint awint rppolint scpolint npolint pointint quatint intlarhk b=pluscir plusacir simplus",
  "plusdu plussim plustwo 2=mcomma minusdu 3=loplus roplus Cross timesd timesbar 2=smashp lotimes",
  "rotimes otimesas Otimes odiv triplus triminus tritime intprod,iprod 3=amalg capdot 2=ncup ncap",
  "capand cupor cupcap capcup cupbrcap capbrcup cupcup capcap ccups ccaps 3=ccupssm 3=And Or",
  "andand oror orslope andslope 2=andv orv andd ord 2=wedbar 7=sdote 4=simdot 3=congdot",
  "0=ncongdot+338 easter apacir apE 0=napE+338 eplus pluse Esim Colone Equal 2=ddotseq,eDDot",
  "equivDD ltcir gtcir ltquest gtquest LessSlantEqual,leqslant,les",
  "0=NotLessSlantEqual,nleqslant,nles+338 GreaterSlantEqual,geqslant,ges",
  "0=NotGreaterSlantEqual,ngeqslant,nges+338 lesdot gesdot lesdoto gesdoto lesdotor gesdotol",
  "lap,lessapprox gap,gtrapprox lne,lneq gne,gneq lnap,lnapprox gnap,gnapprox lEg,lesseqqgtr",
  "gEl,gtreqqless lsime gsime lsimg gsiml lgE glE lesges gesles els,eqslantless egs,eqslantgtr",
  "elsdot egsdot el eg 3=siml simg simlE simgE LessLess 0=NotNestedLessLess+338 GreaterGreater",
  "0=NotNestedGreaterGreater+338 2=glj gla ltcc gtcc lescc gescc smt lat smte 0=smtes+fe00 late",
  "0=lates+fe00 bumpE PrecedesEqual,pre,preceq 0=NotPrecedesEqual,npre,npreceq+338",
  "SucceedsEqual,sce,succeq 0=NotSucceedsEqual,nsce,nsucceq+338 3=prE scE precneqq,prnE",
  "scnE,succneqq prap,precapprox scap,succapprox precnapprox,prnap scnap,succnapprox Pr Sc subdot",
  "supdot subplus supplus submult supmult subedot supedot subE,subseteqq 0=nsubE,nsubseteqq+338",
  "supE,supseteqq 0=nsupE,nsupseteqq+338 subsim supsim 3=subnE,subsetneqq",
  "0=varsubsetneqq,vsubnE+fe00 supnE,supsetneqq 0=varsupsetneqq,vsupnE+fe00 3=csub csup csube",
  "csupe subsup supsub subsub supsup suphsub supdsub forkv topfork mlcp 9=Dashv,DoubleLeftTee",
  "2=Vdashl Barv vBar vBarv 2=Vbar Not bNot rnmid cirmid midcir topcir nhpar parsim a=parsl",
  "0=nparsl+20e5 d003=fflig filig fllig ffilig ffllig d998=Ascr 2=Cscr Dscr 3=Gscr 3=Jscr Kscr",
  "3=Nscr Oscr Pscr Qscr 2=Sscr Tscr Uscr Vscr Wscr Xscr Yscr Zscr ascr bscr cscr dscr 2=fscr",
  "2=hscr iscr jscr kscr lscr mscr nscr 2=pscr qscr rscr sscr tscr uscr vscr wscr xscr yscr zscr",
  "35=Afr Bfr 2=Dfr Efr Ffr Gfr 3=Jfr Kfr Lfr Mfr Nfr Ofr Pfr Qfr 2=Sfr Tfr Ufr Vfr Wfr Xfr Yfr",
  "2=afr bfr cfr dfr efr ffr gfr hfr ifr jfr kfr lfr mfr nfr ofr pfr qfr rfr sfr tfr ufr vfr wfr",
  "xfr yfr zfr Aopf Bopf 2=Dopf Eopf Fopf Gopf 2=Iopf Jopf Kopf Lopf Mopf 2=Oopf 4=Sopf Topf Uopf",
  "Vopf Wopf Xopf Yopf 2=aopf bopf copf dopf eopf fopf gopf hopf iopf jopf kopf lopf mopf nopf",
  "oopf popf qopf ropf sopf topf uopf vopf wopf xopf yopf zopf"]

def references : List (List Char × List Char) :=
  markedReferences.map fun (name, chars) => (name.filter (· != '!'), chars)

def oldNames : List (List Char) :=
  markedReferences.filterMap fun (name, _) =>
    if name.getLast? == some '!' then some name.dropLast else none

end ReactiveMarkup.Html
