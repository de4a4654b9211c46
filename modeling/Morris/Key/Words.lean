/-!
# Random words of the position key

One word for each content of a point and each number up to 39, and one for the side to move. They
are the first words that the stream of seed 1070372 gives out, sixty-four bits at a time, White's
men first, then Black's, then the marks, and last the side; the four lowest bits are dropped, so
that the four highest bits of every word are clear.
-/

set_option autoImplicit false

namespace Morris.Key

/-- Words of White's men. -/
def whiteWords : Array UInt64 :=
  #[0x01db62540b83132d, 0x0dbc7b05fa672ead, 0x0364af31afa013d5, 0x0811d8c8481e1bb1,
     0x0ecc9badc1abc64d, 0x00aed066f2e701df, 0x051923ac35924902, 0x0353570227158694,
     0x09f30a39ef793679, 0x00de6244a1678562, 0x09d9dfe26c490c48, 0x0e1e4852bb56bb99,
     0x0396f646bf6f5637, 0x0769a657e07b76e0, 0x0dd9d714e0dbee3e, 0x02ec937b26f94756,
     0x07d6ce1242f78720, 0x0211a9518426bb8b, 0x08ffad7db03ffa86, 0x0897f17b9df8c54f,
     0x0a01cee7e2b1ffa4, 0x0b51222b8f2b0ec2, 0x007cf9c208206d61, 0x05df3fe34fa040ec,
     0x0f3a94e1039fa7d0, 0x06aef315bf305125, 0x0a4f68632c5d511a, 0x0d6ecb9b4e9de781,
     0x02c45806c24f310b, 0x01a3fb7aa508b4ca, 0x07858ef52f85e2e1, 0x034814fcff59f92e,
     0x0e149e5d74ac2f15, 0x01e2f5a0fcec25ba, 0x084c2615ead7be6f, 0x0342d5b8ee9081a3,
     0x07dea9237f2ed697, 0x0b482782018e2cd3, 0x0303923b2b3288ab, 0x04cb53e56e685691]

/-- Words of Black's men. -/
def blackWords : Array UInt64 :=
  #[0x050139b39b191fcb, 0x05be1624a1abc5b9, 0x0d261e48150f3c0b, 0x0492a3de7b6a73d4,
     0x0b0e3c14400a6187, 0x0c51d1af4c014e08, 0x0fda34db10bba5b2, 0x06215d8e503a4b27,
     0x0dc9be2510c1e26d, 0x05fa77e1f253c4e2, 0x040bde8a4d5c4ff6, 0x0c3540613b31b059,
     0x0e5465aa997159c8, 0x09883da17bb7edde, 0x01e726d6bad843b1, 0x00c8cdd6c510f2a3,
     0x0f3e00aa844d8c84, 0x056b5cfdf839cc36, 0x069157639f2a4ed7, 0x013f6dda647362be,
     0x0f9bababd97d1250, 0x00c249288b2d84a2, 0x00273d46208f2323, 0x00d08b92b4f997d2,
     0x00cb883d53d40d67, 0x06266f46489e1731, 0x0ce77d515b199c88, 0x0f559a6d73a2878b,
     0x0046cb2f8ec811e6, 0x0303d7ab89e12e10, 0x0104df585a94eda9, 0x028ce0c280e8345a,
     0x0b28125d82bcab54, 0x0b92612e4e1f023a, 0x04f9908a4abc2260, 0x03942591e7de3131,
     0x0c75ba1e52532dcf, 0x075b217a62aa2070, 0x0227b4e96a73e81a, 0x0315dc8fd3da2e85]

/-- Words of the marks. -/
def markWords : Array UInt64 :=
  #[0x064b87428654271e, 0x00b2ca0438ce2b73, 0x07bc5c465880912f, 0x0fa28f9ed0e1645f,
     0x0fe81293905287b6, 0x0e8f9595cefcbcbe, 0x0fd808a2ebe8f953, 0x0787a2dd398f454e,
     0x0a66192dd5ab8265, 0x0a9c67891410b1b9, 0x0b93b8c441c7c555, 0x016ceeccf5212b31,
     0x0f0d95556a81d6c5, 0x0d014a56ed370277, 0x0a8cd48d0bbc6383, 0x0046e32779a505d4,
     0x0113387f0be3077c, 0x012997eba4e2f9d2, 0x0adc31f828eceef1, 0x088abeb3de4f910b,
     0x09e1e3a2664d1131, 0x056aec128be2a369, 0x0991ae2a471c4e50, 0x03bb9011ff5cbf30,
     0x0a7a43c5c219c1f2, 0x016b53a79bf8226c, 0x075f116035931ab6, 0x0faeb4bdc85bb20a,
     0x0cfb31f429b47e63, 0x058174b6c2985f68, 0x00f2c7b03a6e3dde, 0x051ed4e2d8d33233,
     0x0bd1b5d5d53e63ac, 0x08bcf85306083142, 0x0c3b9d71e69f4d8c, 0x075763cf4aea72c9,
     0x06a200819b9ff9fa, 0x0853e5e4fbfab6b6, 0x02c03a8819c95cb1, 0x0e5376f333311076]

/-- Word of Black's turn. -/
def sideWord : UInt64 := 0x0a0e3aef4c26796e

end Morris.Key
